import Mathlib.Logic.Function.Basic
import Mathlib.Tactic

/-!
# Futex words

Threads wait for words of shared memory to take a value. A thread that has loaded another value may
sleep in the kernel, which compares the word once more before it lets the thread sleep. A thread
that changes a word wakes one sleeper afterwards. No wake-up is lost if a sleeper whose value has
come is preferred to the others.
-/

namespace Aethon.Framework

/-- Where a thread stands with the kernel: it runs, it is about to call `futex_wait` for a word that
it loaded, it sleeps, or it is about to call `futex_wake`. -/
inductive Pause (W : Type) where
  | running
  | refused (addr : Nat) (old : W)
  | asleep (addr : Nat)
  | waking (addr : Nat)
  deriving DecidableEq, Repr

variable {ι W : Type} [DecidableEq ι] [DecidableEq W]

/-- `futex_wait`. -/
def futexWait (word : Nat → W) (pause : ι → Pause W) (x : ι) (addr : Nat) (old : W) : ι → Pause W :=
  Function.update pause x (if word addr = old then .asleep addr else .running)

/-- `futex_wake` for one thread, which the kernel chooses. -/
def futexWake (pause : ι → Pause W) (addr : Nat) (choice : Option ι) : ι → Pause W :=
  match choice with
  | none => pause
  | some z => if pause z = .asleep addr then Function.update pause z .running else pause

/-- The thread sleeps although the word has the value that it waits for. -/
def Due (word : Nat → W) (awaits : ι → Option (Nat × W)) (pause : ι → Pause W) (addr : Nat)
    (z : ι) : Prop :=
  pause z = .asleep addr ∧ awaits z = some (addr,word addr)

/-- The kernel wakes a sleeper if there is one. -/
def WakesOne (pause : ι → Pause W) (addr : Nat) (choice : Option ι) : Prop :=
  (∃ z, pause z = .asleep addr) → ∃ z, choice = some z ∧ pause z = .asleep addr

/-- The kernel wakes the sleeper whose value has come if there is one. -/
def WakesDue (word : Nat → W) (awaits : ι → Option (Nat × W)) (pause : ι → Pause W) (addr : Nat)
    (choice : Option ι) : Prop :=
  ∀ z, Due word awaits pause addr z → choice = some z

omit [DecidableEq ι] [DecidableEq W] in
theorem WakesOne.due {word : Nat → W} {awaits : ι → Option (Nat × W)} {pause : ι → Pause W}
    {addr : Nat} {choice : Option ι} (h : WakesOne pause addr choice)
    (hsingle : ∀ y z, pause y = .asleep addr → pause z = .asleep addr → y = z) :
    WakesDue word awaits pause addr choice := by
  intro z hz
  obtain ⟨y,hchoice,hy⟩ := h ⟨z,hz.1⟩
  rw [hchoice,hsingle y z hy hz.1]

/-- Sleepers wait for a value, and one whose value has come is about to be woken. -/
structure Attended (word : Nat → W) (awaits : ι → Option (Nat × W)) (pause : ι → Pause W) :
    Prop where
  asleep : ∀ x addr, pause x = .asleep addr → ∃ w, awaits x = some (addr,w)
  refused : ∀ x addr old, pause x = .refused addr old → ∃ w, awaits x = some (addr,w) ∧ old ≠ w
  woken : ∀ x addr, Due word awaits pause addr x → ∃ y, pause y = .waking addr

namespace Attended

variable {word word' : Nat → W} {awaits awaits' : ι → Option (Nat × W)} {pause : ι → Pause W}
  {x : ι} {addr : Nat}

omit [DecidableEq ι] [DecidableEq W] in
theorem init (hrunning : ∀ x, pause x = .running) : Attended word awaits pause where
  asleep := by
    intro x addr hx
    rw [hrunning] at hx
    cases hx
  refused := by
    intro x addr old hx
    rw [hrunning] at hx
    cases hx
  woken := by
    rintro x addr ⟨hx,_⟩
    rw [hrunning] at hx
    cases hx

omit [DecidableEq W] in
/-- A thread takes a step. A word that it changes is one that it will wake a sleeper of, it sleeps
only while its value has not come, and it drops a wake-up only if none is needed. -/
theorem update (h : Attended word awaits pause) {p : Pause W}
    (hothers : ∀ y, y ≠ x → awaits' y = awaits y)
    (hword : ∀ addr, word' addr ≠ word addr → p = .waking addr)
    (hasleep : ∀ addr, p = .asleep addr → ∃ w, awaits' x = some (addr,w) ∧ word' addr ≠ w)
    (hrefused : ∀ addr old, p = .refused addr old → ∃ w, awaits' x = some (addr,w) ∧ old ≠ w)
    (hwaking : ∀ addr, pause x = .waking addr → ∀ z, ¬Due word awaits pause addr z) :
    Attended word' awaits' (Function.update pause x p) where
  asleep := by
    intro y addr hy
    by_cases hyx : y = x
    · rw [hyx,Function.update_self] at hy
      obtain ⟨w,hw,_⟩ := hasleep addr hy
      exact ⟨w,by rw [hyx,hw]⟩
    · rw [Function.update_of_ne hyx] at hy
      rw [hothers y hyx]
      exact h.asleep y addr hy
  refused := by
    intro y addr old hy
    by_cases hyx : y = x
    · rw [hyx,Function.update_self] at hy
      rw [hyx]
      exact hrefused addr old hy
    · rw [Function.update_of_ne hyx] at hy
      rw [hothers y hyx]
      exact h.refused y addr old hy
  woken := by
    rintro y addr ⟨hy,hdue⟩
    by_cases hchanged : word' addr = word addr
    · by_cases hyx : y = x
      · rw [hyx,Function.update_self] at hy
        obtain ⟨w,hw,hne⟩ := hasleep addr hy
        rw [hyx,hw] at hdue
        cases hdue
        exact absurd rfl hne
      · rw [Function.update_of_ne hyx] at hy
        rw [hothers y hyx,hchanged] at hdue
        obtain ⟨z,hz⟩ := h.woken y addr ⟨hy,hdue⟩
        have hzx : z ≠ x := by
          rintro rfl
          exact hwaking addr hz y ⟨hy,hdue⟩
        exact ⟨z,by rw [Function.update_of_ne hzx,hz]⟩
    · exact ⟨x,by rw [Function.update_self,hword addr hchanged]⟩

omit [DecidableEq W] in
/-- A thread that is not about to wake another one runs on. -/
theorem run (h : Attended word awaits pause)
    (hwaking : ∀ addr, pause x = .waking addr → ∀ z, ¬Due word awaits pause addr z) :
    Attended word awaits (Function.update pause x .running) :=
  h.update (fun _ _ => rfl) (fun _ hne => absurd rfl hne) (by simp) (by simp) hwaking

/-- The kernel compares the word with the one that was loaded, which is not awaited. -/
theorem wait (h : Attended word awaits pause) {old : W} (hx : pause x = .refused addr old) :
    Attended word awaits (futexWait word pause x addr old) := by
  obtain ⟨w,hw,hold⟩ := h.refused x addr old hx
  refine h.update (fun _ _ => rfl) (fun _ hne => absurd rfl hne) ?_ ?_ ?_
  · intro addr' hp
    split_ifs at hp with hsame
    cases hp
    exact ⟨w,hw,by rw [hsame]; exact hold⟩
  · intro addr' old' hp
    split_ifs at hp
  · intro addr' hwaking
    rw [hx] at hwaking
    cases hwaking

omit [DecidableEq W] in
/-- A sleeper may run again at any time. -/
theorem interrupt (h : Attended word awaits pause) (hx : pause x = .asleep addr) :
    Attended word awaits (Function.update pause x .running) := by
  apply h.run
  intro addr' hwaking
  rw [hx] at hwaking
  cases hwaking

/-- The wake-up reaches the sleeper whose value has come. -/
theorem wake (h : Attended word awaits pause) (hx : pause x = .waking addr) {choice : Option ι}
    (hchoice : WakesDue word awaits pause addr choice) :
    Attended word awaits (Function.update (futexWake pause addr choice) x .running) := by
  cases choice with
  | none =>
    apply h.run
    intro addr' hwaking z hz
    change pause x = .waking addr' at hwaking
    rw [hx] at hwaking
    cases hwaking
    cases hchoice z hz
  | some c =>
    by_cases hc : pause c = .asleep addr
    · have hxc : x ≠ c := by
        rintro rfl
        rw [hx] at hc
        cases hc
      rw [futexWake,if_pos hc]
      apply (h.interrupt hc).run
      intro addr' hwaking z hz
      rw [Function.update_of_ne hxc,hx] at hwaking
      cases hwaking
      obtain ⟨hasleep,hawaits⟩ := hz
      have hzc : z ≠ c := by
        rintro rfl
        rw [Function.update_self] at hasleep
        cases hasleep
      rw [Function.update_of_ne hzc] at hasleep
      cases hchoice z ⟨hasleep,hawaits⟩
      exact hzc rfl
    · rw [futexWake,if_neg hc]
      apply h.run
      intro addr' hwaking z hz
      rw [hx] at hwaking
      cases hwaking
      cases hchoice z hz
      exact hc hz.1

end Attended

end Aethon.Framework
