import Mathlib.Tactic

/-!
# Runs of a partial step function

A component is a step function that may stop with a fault and that emits one output
for each input. A run folds it over a list of inputs and keeps the outputs in order.
The rules below turn facts about one step into facts about every run.
-/

namespace Aethon.Framework

variable {ε σ α β γ : Type}

/-- A sequence of two fallible computations succeeds exactly when both parts do. -/
theorem bind_ok_iff (x : Except ε α) (f : α → Except ε γ) (c : γ) :
    (x >>= f) = .ok c ↔ ∃ a, x = .ok a ∧ f a = .ok c := by
  cases x with
  | error e =>
    constructor
    · intro h
      cases h
    · rintro ⟨_,h,_⟩
      cases h
  | ok a =>
    constructor
    · intro h
      exact ⟨a,rfl,h⟩
    · rintro ⟨_,h,hf⟩
      cases h
      exact hf

/-- Feed the inputs to `step` one after the other and collect the outputs. -/
def runOut (step : σ → α → Except ε (σ × β)) : σ → List α → Except ε (σ × List β)
  | s, [] => .ok (s,[])
  | s, a :: as => do
      let (t,b) ← step s a
      let (u,bs) ← runOut step t as
      return (u,b :: bs)

/-- Condition `C` holds of every input of the run in the state it meets. -/
def Along (C : σ → α → Prop) (step : σ → α → Except ε (σ × β)) : σ → List α → Prop
  | _, [] => True
  | s, a :: as => C s a ∧ ∀ t b, step s a = .ok (t,b) → Along C step t as

theorem runOut_nil (step : σ → α → Except ε (σ × β)) (s : σ) :
    runOut step s [] = .ok (s,[]) := rfl

theorem runOut_cons (step : σ → α → Except ε (σ × β)) (s : σ) (a : α) (as : List α)
    (u : σ) (bs : List β) :
    runOut step s (a :: as) = .ok (u,bs) ↔
      ∃ t b cs, step s a = .ok (t,b) ∧ runOut step t as = .ok (u,cs) ∧ bs = b :: cs := by
  simp only [runOut,bind_ok_iff]
  constructor
  · rintro ⟨⟨t,b⟩,hs,⟨v,cs⟩,hr,h⟩
    simp only [pure,Except.pure,Except.ok.injEq,Prod.mk.injEq] at h
    obtain ⟨rfl,rfl⟩ := h
    exact ⟨t,b,cs,hs,hr,rfl⟩
  · rintro ⟨t,b,cs,hs,hr,rfl⟩
    exact ⟨(t,b),hs,(u,cs),hr,rfl⟩

theorem runOut_append (step : σ → α → Except ε (σ × β)) (as as' : List α) (s u : σ)
    (bs : List β) :
    runOut step s (as ++ as') = .ok (u,bs) ↔
      ∃ t cs ds, runOut step s as = .ok (t,cs) ∧ runOut step t as' = .ok (u,ds) ∧
        bs = cs ++ ds := by
  induction as generalizing s bs with
  | nil =>
    constructor
    · intro h
      exact ⟨s,[],bs,rfl,h,rfl⟩
    · rintro ⟨t,cs,ds,h,hr,rfl⟩
      simp only [runOut_nil,Except.ok.injEq,Prod.mk.injEq] at h
      obtain ⟨rfl,rfl⟩ := h
      exact hr
  | cons a as ih =>
    simp only [List.cons_append,runOut_cons,ih]
    constructor
    · rintro ⟨t,b,_,hs,⟨v,cs,ds,hc,hd,rfl⟩,rfl⟩
      exact ⟨v,b :: cs,ds,⟨t,b,cs,hs,hc,rfl⟩,hd,rfl⟩
    · rintro ⟨v,_,ds,⟨t,b,cs,hs,hc,rfl⟩,hd,rfl⟩
      exact ⟨t,b,cs ++ ds,hs,⟨v,cs,ds,hc,hd,rfl⟩,rfl⟩

/-- An invariant of the state and of the outputs so far that every step keeps, in runs
whose inputs all meet `C`, holds at the end of the run. -/
theorem runOut_invariant {step : σ → α → Except ε (σ × β)} {C : σ → α → Prop}
    {I : σ → List β → Prop}
    (hstep : ∀ s a t b bs, I s bs → C s a → step s a = .ok (t,b) → I t (bs ++ [b]))
    (as : List α) (s u : σ) (pre bs : List β) (hi : I s pre) (hc : Along C step s as)
    (hr : runOut step s as = .ok (u,bs)) : I u (pre ++ bs) := by
  induction as generalizing s pre bs with
  | nil =>
    simp only [runOut_nil,Except.ok.injEq,Prod.mk.injEq] at hr
    obtain ⟨rfl,rfl⟩ := hr
    simpa using hi
  | cons a as ih =>
    obtain ⟨t,b,cs,hs,ht,rfl⟩ := (runOut_cons ..).mp hr
    have h := ih t (pre ++ [b]) cs (hstep s a t b pre hi hc.1 hs) (hc.2 t b hs) ht
    simpa using h

/-- What holds of the output of every step holds of every output of a run. -/
theorem runOut_forall {step : σ → α → Except ε (σ × β)} {Q : β → Prop}
    (hstep : ∀ s a t b, step s a = .ok (t,b) → Q b) {as : List α} {s u : σ} {bs : List β}
    (hr : runOut step s as = .ok (u,bs)) : ∀ b ∈ bs, Q b := by
  induction as generalizing s bs with
  | nil =>
    cases hr
    simp
  | cons a as ih =>
    obtain ⟨t,b,cs,hs,ht,rfl⟩ := (runOut_cons ..).mp hr
    intro x hx
    rcases List.mem_cons.mp hx with rfl | hrest
    · exact hstep s a t x hs
    · exact ih ht x hrest

/-- A run cannot stop when an invariant allows every next step. -/
theorem runOut_total {step : σ → α → Except ε (σ × β)} {C : σ → α → Prop} {I : σ → Prop}
    (hstep : ∀ s a, I s → C s a → ∃ t b, step s a = .ok (t,b) ∧ I t)
    (as : List α) (s : σ) (hi : I s) (hc : Along C step s as) :
    ∃ u bs, runOut step s as = .ok (u,bs) := by
  induction as generalizing s with
  | nil => exact ⟨s,[],rfl⟩
  | cons a as ih =>
    obtain ⟨t,b,hs,ht⟩ := hstep s a hi hc.1
    obtain ⟨u,bs,hr⟩ := ih t ht (hc.2 t b hs)
    exact ⟨u,b :: bs,(runOut_cons ..).mpr ⟨t,b,bs,hs,hr,rfl⟩⟩

/-- Where every input can be taken and keeps an invariant of the state and of the outputs so far,
every run goes through and ends in the invariant. -/
theorem runOut_reaches {step : σ → α → Except ε (σ × β)} {I : σ → List β → Prop}
    (hstep : ∀ s a bs, I s bs → ∃ t b, step s a = .ok (t,b) ∧ I t (bs ++ [b]))
    (as : List α) (s : σ) (pre : List β) (hi : I s pre) :
    ∃ u bs, runOut step s as = .ok (u,bs) ∧ I u (pre ++ bs) := by
  induction as generalizing s pre with
  | nil => exact ⟨s,[],rfl,by simpa using hi⟩
  | cons a as ih =>
    obtain ⟨t,b,hs,ht⟩ := hstep s a pre hi
    obtain ⟨u,bs,hr,hu⟩ := ih t (pre ++ [b]) ht
    exact ⟨u,b :: bs,(runOut_cons ..).mpr ⟨t,b,bs,hs,hr,rfl⟩,by simpa using hu⟩

theorem Along.mono {step : σ → α → Except ε (σ × β)} {C D : σ → α → Prop}
    (h : ∀ s a, C s a → D s a) (as : List α) (s : σ) (hc : Along C step s as) :
    Along D step s as := by
  induction as generalizing s with
  | nil => trivial
  | cons a as ih => exact ⟨h s a hc.1,fun t b hs => ih t (hc.2 t b hs)⟩

theorem Along.and {step : σ → α → Except ε (σ × β)} {C D : σ → α → Prop} {as : List α}
    {s : σ} (hc : Along C step s as) (hd : Along D step s as) :
    Along (fun s a => C s a ∧ D s a) step s as := by
  induction as generalizing s with
  | nil => trivial
  | cons a as ih =>
    exact ⟨⟨hc.1,hd.1⟩,fun t b hs => ih (hc.2 t b hs) (hd.2 t b hs)⟩

theorem Along.of_forall {step : σ → α → Except ε (σ × β)} {P : α → Prop} (as : List α)
    (s : σ) (h : ∀ a ∈ as, P a) : Along (fun _ a => P a) step s as := by
  induction as generalizing s with
  | nil => trivial
  | cons a as ih =>
    exact ⟨h a (by simp),fun t _ _ => ih t fun x hx => h x (by simp [hx])⟩

theorem Along.of_always {step : σ → α → Except ε (σ × β)} {C : σ → α → Prop}
    (h : ∀ s a, C s a) (as : List α) (s : σ) : Along C step s as := by
  induction as generalizing s with
  | nil => trivial
  | cons a as ih => exact ⟨h s a,fun t _ _ => ih t⟩

theorem Along.append {step : σ → α → Except ε (σ × β)} {C : σ → α → Prop} {as bs : List α}
    {s : σ} (h : Along C step s (as ++ bs)) :
    Along C step s as ∧ ∀ u os, runOut step s as = .ok (u,os) → Along C step u bs := by
  induction as generalizing s with
  | nil =>
    refine ⟨trivial,?_⟩
    intro u os hr
    cases hr
    exact h
  | cons a as ih =>
    refine ⟨⟨h.1,fun t b hs => (ih (h.2 t b hs)).1⟩,?_⟩
    intro u os hr
    obtain ⟨t,b,cs,hs,ht,_⟩ := (runOut_cons ..).mp hr
    exact (ih (h.2 t b hs)).2 u cs ht

/-- A run within `C` leads from one state to the other. -/
def Leads (C : σ → α → Prop) (step : σ → α → Except ε (σ × β)) (s u : σ) : Prop :=
  ∃ as bs, Along C step s as ∧ runOut step s as = .ok (u,bs)

section Leads

variable {step : σ → α → Except ε (σ × β)} {C : σ → α → Prop} {s t u : σ}

theorem Leads.refl (s : σ) : Leads C step s s := ⟨[],[],trivial,rfl⟩

theorem Leads.cons {a : α} {b : β} (ha : C s a) (hstep : step s a = .ok (t,b))
    (h : Leads C step t u) : Leads C step s u := by
  obtain ⟨as,bs,has,hrun⟩ := h
  refine ⟨a :: as,b :: bs,⟨ha,?_⟩,(runOut_cons ..).mpr ⟨t,b,bs,hstep,hrun,rfl⟩⟩
  intro t' b' hstep'
  rw [hstep] at hstep'
  cases hstep'
  exact has

theorem Leads.trans (h : Leads C step s t) (h' : Leads C step t u) : Leads C step s u := by
  obtain ⟨as,bs,has,hrun⟩ := h
  induction as generalizing s bs with
  | nil =>
    cases hrun
    exact h'
  | cons a as ih =>
    obtain ⟨v,b,bs',hstep,hrest,_⟩ := (runOut_cons ..).mp hrun
    exact Leads.cons has.1 hstep (ih bs' (has.2 v b hstep) hrest)

end Leads

/-- `R` holds of every input of the run, in the state it meets and with the outputs so far. -/
def During (R : σ → List β → α → Prop) (step : σ → α → Except ε (σ × β)) (s : σ)
    (as : List α) : Prop :=
  ∀ before a after t bs, as = before ++ a :: after → runOut step s before = .ok (t,bs) → R t bs a

theorem During.mono {R R' : σ → List β → α → Prop} {step : σ → α → Except ε (σ × β)} {s : σ}
    {as : List α} (himp : ∀ t bs a, R t bs a → R' t bs a) (h : During R step s as) :
    During R' step s as :=
  fun before a after t bs heq hr => himp t bs a (h before a after t bs heq hr)

theorem During.left {R : σ → List β → α → Prop} {step : σ → α → Except ε (σ × β)} {s : σ}
    {as as' : List α} (h : During R step s (as ++ as')) : During R step s as := by
  intro before a after t bs heq
  exact h before a (after ++ as') t bs (by rw [heq,List.append_assoc,List.cons_append])

theorem During.snoc {R : σ → List β → α → Prop} {step : σ → α → Except ε (σ × β)} {s t : σ}
    {as : List α} {bs : List β} {a : α} (h : During R step s as)
    (hr : runOut step s as = .ok (t,bs)) (ha : R t bs a) : During R step s (as ++ [a]) := by
  intro before b after u cs heq hrun
  rcases List.eq_nil_or_concat' after with rfl | ⟨init,last,rfl⟩
  · obtain ⟨rfl,hb⟩ := List.append_inj' heq rfl
    cases hb
    rw [hr] at hrun
    cases hrun
    exact ha
  · rw [← List.cons_append,← List.append_assoc] at heq
    exact h before b init u cs (List.append_inj' heq rfl).1 hrun

/-- A run leads to `t` with the outputs `bs`, and `R` holds of every input of it. -/
def Arrives (R : σ → List β → α → Prop) (step : σ → α → Except ε (σ × β)) (s t : σ)
    (bs : List β) : Prop :=
  ∃ as, runOut step s as = .ok (t,bs) ∧ During R step s as

theorem Arrives.step {R : σ → List β → α → Prop} {step : σ → α → Except ε (σ × β)} {s t u : σ}
    {bs : List β} {a : α} {b : β} (h : Arrives R step s t bs) (ha : R t bs a)
    (hs : step t a = .ok (u,b)) : Arrives R step s u (bs ++ [b]) := by
  obtain ⟨as,hr,hd⟩ := h
  exact ⟨as ++ [a],(runOut_append ..).mpr ⟨t,bs,[b],hr,(runOut_cons ..).mpr ⟨u,b,[],hs,rfl,rfl⟩,rfl⟩,
    hd.snoc hr ha⟩

/-- The invariant rule for conditions that look back at the outputs. -/
theorem runOut_during {R : σ → List β → α → Prop} {step : σ → α → Except ε (σ × β)}
    {I : σ → List β → Prop}
    (hstep : ∀ s a t b bs, I s bs → R s bs a → step s a = .ok (t,b) → I t (bs ++ [b]))
    {as : List α} {s u : σ} {bs : List β} (hi : I s []) (hd : During R step s as)
    (hr : runOut step s as = .ok (u,bs)) : I u bs := by
  induction as using List.reverseRecOn generalizing u bs with
  | nil =>
    cases hr
    exact hi
  | append_singleton as a ih =>
    obtain ⟨t,cs,ds,hbefore,hlast,rfl⟩ := (runOut_append ..).mp hr
    obtain ⟨v,b,es,hone,hnil,rfl⟩ := (runOut_cons ..).mp hlast
    cases hnil
    exact hstep t a _ b cs (ih hd.left hbefore) (hd as a [] t cs rfl hbefore) hone

/-- A check of every input of the run in the state it meets. -/
def alongCheck (check : σ → α → Bool) (step : σ → α → Except ε (σ × β)) : σ → List α → Bool
  | _, [] => true
  | s, a :: as => check s a && match step s a with
    | .ok (t,_) => alongCheck check step t as
    | .error _ => true

theorem Along.of_check {step : σ → α → Except ε (σ × β)} {C : σ → α → Prop}
    {check : σ → α → Bool} (hcheck : ∀ s a, check s a = true → C s a) (as : List α) (s : σ)
    (h : alongCheck check step s as = true) : Along C step s as := by
  induction as generalizing s with
  | nil => trivial
  | cons a as ih =>
    rw [alongCheck,Bool.and_eq_true] at h
    refine ⟨hcheck s a h.1,?_⟩
    intro t b hs
    have hrest := h.2
    rw [hs] at hrest
    exact ih t hrest

/-- A check of every input of the run in the state it meets, with the outputs so far. -/
def duringCheck (check : σ → List β → α → Bool) (step : σ → α → Except ε (σ × β)) :
    σ → List β → List α → Bool
  | _, _, [] => true
  | s, bs, a :: as => check s bs a && match step s a with
    | .ok (t,b) => duringCheck check step t (bs ++ [b]) as
    | .error _ => true

theorem duringCheck_sound {step : σ → α → Except ε (σ × β)} {check : σ → List β → α → Bool}
    (before : List α) {as after : List α} {a : α} {s t : σ} {bs cs : List β}
    (h : duringCheck check step s bs as = true) (heq : as = before ++ a :: after)
    (hr : runOut step s before = .ok (t,cs)) : check t (bs ++ cs) a = true := by
  induction before generalizing as s bs cs with
  | nil =>
    cases hr
    rw [heq,List.nil_append,duringCheck,Bool.and_eq_true] at h
    rw [List.append_nil]
    exact h.1
  | cons x before ih =>
    obtain ⟨u,b,ds,hs,hrest,rfl⟩ := (runOut_cons ..).mp hr
    rw [heq,List.cons_append,duringCheck,Bool.and_eq_true,hs] at h
    have hend := ih h.2 rfl hrest
    rwa [List.append_assoc] at hend

theorem During.of_check {R : σ → List β → α → Prop} [∀ s bs a, Decidable (R s bs a)]
    {step : σ → α → Except ε (σ × β)} {s : σ} {as : List α}
    (h : duringCheck (fun s bs a => decide (R s bs a)) step s [] as = true) :
    During R step s as := by
  intro before a after t bs heq hr
  exact of_decide_eq_true (duringCheck_sound before h heq hr)

/-- A monadic fold whose body always succeeds and keeps `I` succeeds and keeps `I`. -/
theorem foldlM_invariant {f : σ → α → Except ε σ} {I : σ → Prop} (as : List α)
    (hstep : ∀ s, ∀ a ∈ as, I s → ∃ t, f s a = .ok t ∧ I t) (s : σ) (hi : I s) :
    ∃ t, as.foldlM f s = .ok t ∧ I t := by
  induction as generalizing s with
  | nil => exact ⟨s,rfl,hi⟩
  | cons a as ih =>
    obtain ⟨t,hs,ht⟩ := hstep s a (by simp) hi
    obtain ⟨u,hu,hiu⟩ := ih (fun s b hb => hstep s b (by simp [hb])) t ht
    refine ⟨u,?_,hiu⟩
    rw [List.foldlM_cons,bind_ok_iff]
    exact ⟨t,hs,hu⟩

/-- A monadic fold that succeeds keeps what every successful round keeps. -/
theorem foldlM_keeps {f : σ → α → Except ε σ} {I : σ → Prop}
    (hstep : ∀ s a t, I s → f s a = .ok t → I t) (as : List α) {s u : σ} (hi : I s)
    (hr : as.foldlM f s = .ok u) : I u := by
  induction as generalizing s with
  | nil =>
    cases hr
    exact hi
  | cons a as ih =>
    rw [List.foldlM_cons,bind_ok_iff] at hr
    obtain ⟨t,hs,ht⟩ := hr
    exact ih (hstep s a t hi hs) ht

end Aethon.Framework
