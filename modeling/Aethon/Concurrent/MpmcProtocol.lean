import Aethon.Concurrent.MpmcSlots

/-!
# The ticket protocol of the multi-producer multi-consumer queue

In every interleaving of writers and readers a slot has at most one thread between observing its
turn and publishing the next, and the read with pop ticket `t` returns the value of the write with
push ticket `t`.
-/

namespace Aethon.Concurrent

open Framework

variable {T : Type}

def MpmcEvent.pushDraw : MpmcEvent T → List (Nat × T)
  | .drewPush ticket value => [(ticket,value)]
  | _ => []

def MpmcEvent.popDraw : MpmcEvent T → List Nat
  | .drewPop ticket => [ticket]
  | _ => []

def MpmcEvent.push : MpmcEvent T → List (Nat × T)
  | .pushed ticket value => [(ticket,value)]
  | _ => []

def MpmcEvent.pop : MpmcEvent T → List (Nat × T)
  | .popped ticket result => [(ticket,result)]
  | _ => []

/-- The push tickets in the order of the draws, with the values to write. -/
def pushDraws (log : List (MpmcEvent T)) : List (Nat × T) := log.flatMap MpmcEvent.pushDraw

/-- The pop tickets in the order of the draws. -/
def popDraws (log : List (MpmcEvent T)) : List Nat := log.flatMap MpmcEvent.popDraw

/-- The writes that are over, by ticket and value. -/
def pushes (log : List (MpmcEvent T)) : List (Nat × T) := log.flatMap MpmcEvent.push

/-- The reads that are over, by ticket and result. -/
def pops (log : List (MpmcEvent T)) : List (Nat × T) := log.flatMap MpmcEvent.pop

section Concat

variable (log : List (MpmcEvent T)) (e : MpmcEvent T)

@[simp] theorem pushDraws_concat : pushDraws (log ++ [e]) = pushDraws log ++ e.pushDraw := by
  simp [pushDraws]

@[simp] theorem popDraws_concat : popDraws (log ++ [e]) = popDraws log ++ e.popDraw := by
  simp [popDraws]

@[simp] theorem pushes_concat : pushes (log ++ [e]) = pushes log ++ e.push := by
  simp [pushes]

@[simp] theorem pops_concat : pops (log ++ [e]) = pops log ++ e.pop := by
  simp [pops]

end Concat

namespace MpmcQueue

variable {n m : Nat}

/-- The calls that are over, at the given turns. -/
structure Recorded (q : MpmcQueue T n m) (log : List (MpmcEvent T)) (turns : Nat → Nat) : Prop where
  popOrder : popDraws log = List.range q.popTicket
  pushed : ∀ t, t ∈ (pushes log).map Prod.fst ↔
    t / q.capacity.toNat < (turns (t % q.capacity.toNat) + 1) / 2
  popped : ∀ t, t ∈ (pops log).map Prod.fst ↔
    t / q.capacity.toNat < turns (t % q.capacity.toNat) / 2
  pushedOnce : ((pushes log).map Prod.fst).Nodup
  poppedOnce : ((pops log).map Prod.fst).Nodup
  pushedDrawn : ∀ p ∈ pushes log, p ∈ pushDraws log
  poppedDrawn : ∀ p ∈ pops log, p ∈ pushDraws log

/-- The state after the history `log`. -/
def Reached (q : MpmcQueue T n m) (log : List (MpmcEvent T)) : Prop :=
  ∃ turns, q.Scheduled turns ∧ q.Stored (pushDraws log) turns ∧ q.Recorded log turns

variable {q q' : MpmcQueue T n m} {log : List (MpmcEvent T)} {turns : Nat → Nat}

/-- A step that ends no call adds none. -/
theorem Recorded.concat (h : q.Recorded log turns) {e : MpmcEvent T} (hpush : e.push = [])
    (hpop : e.pop = []) (hcap : q'.capacity = q.capacity)
    (horder : popDraws log ++ e.popDraw = List.range q'.popTicket) :
    q'.Recorded (log ++ [e]) turns := by
  constructor <;>
    simp only [popDraws_concat,pushDraws_concat,pushes_concat,pops_concat,hpush,hpop,
      List.append_nil,hcap]
  · exact horder
  · exact h.pushed
  · exact h.popped
  · exact h.pushedOnce
  · exact h.poppedOnce
  · exact fun p hp => List.mem_append_left _ (h.pushedDrawn p hp)
  · exact fun p hp => List.mem_append_left _ (h.poppedDrawn p hp)

/-- The ticket of a write that ends joins those that are over. -/
theorem Recorded.publishWriter (h : q.Recorded log turns) {t : Nat} {v : T}
    (hturn : turns (t % q.capacity.toNat) = 2 * (t / q.capacity.toNat))
    (hmem : (t,v) ∈ pushDraws log) (hcap : q'.capacity = q.capacity)
    (hpops : q'.popTicket = q.popTicket) :
    q'.Recorded (log ++ [.pushed t v]) (q.advance turns t) := by
  obtain ⟨hup,hdown⟩ := advance_half_up hturn
  have hnew : t ∉ (pushes log).map Prod.fst := by
    rw [h.pushed]
    omega
  constructor <;>
    simp only [popDraws_concat,pushDraws_concat,pushes_concat,pops_concat,MpmcEvent.pushDraw,
      MpmcEvent.popDraw,MpmcEvent.push,MpmcEvent.pop,List.append_nil,hcap,hpops]
  · exact h.popOrder
  · intro u
    rw [congrFun hup,visit_over_iff (show (_ + 1) / 2 = _ by omega),← h.pushed]
    simp
  · intro u
    rw [congrFun hdown]
    exact h.popped u
  · rw [List.map_append]
    exact h.pushedOnce.append (List.nodup_singleton _) (by simpa using hnew)
  · exact h.poppedOnce
  · intro p hp
    rcases List.mem_append.mp hp with hold | hlast
    · exact h.pushedDrawn p hold
    · rw [List.mem_singleton.mp hlast]
      exact hmem
  · exact h.poppedDrawn

/-- The ticket of a read that ends joins those that are over. -/
theorem Recorded.publishReader (h : q.Recorded log turns) {t : Nat} {v : T}
    (hturn : turns (t % q.capacity.toNat) = 2 * (t / q.capacity.toNat) + 1)
    (hmem : (t,v) ∈ pushDraws log) (hcap : q'.capacity = q.capacity)
    (hpops : q'.popTicket = q.popTicket) :
    q'.Recorded (log ++ [.popped t v]) (q.advance turns t) := by
  obtain ⟨hup,hdown⟩ := advance_half_down hturn
  have hnew : t ∉ (pops log).map Prod.fst := by
    rw [h.popped]
    omega
  constructor <;>
    simp only [popDraws_concat,pushDraws_concat,pushes_concat,pops_concat,MpmcEvent.pushDraw,
      MpmcEvent.popDraw,MpmcEvent.push,MpmcEvent.pop,List.append_nil,hcap,hpops]
  · exact h.popOrder
  · intro u
    rw [congrFun hup]
    exact h.pushed u
  · intro u
    rw [congrFun hdown,visit_over_iff (show _ / 2 = _ by omega),← h.popped]
    simp
  · exact h.pushedOnce
  · rw [List.map_append]
    exact h.poppedOnce.append (List.nodup_singleton _) (by simpa using hnew)
  · exact h.pushedDrawn
  · intro p hp
    rcases List.mem_append.mp hp with hold | hlast
    · exact h.poppedDrawn p hold
    · rw [List.mem_singleton.mp hlast]
      exact hmem

/-- A step that draws no push ticket. -/
theorem Reached.concat {e : MpmcEvent T} (hdraw : e.pushDraw = []) (hs : q'.Scheduled turns)
    (hst : q'.Stored (pushDraws log) turns) (hr : q'.Recorded (log ++ [e]) turns) :
    q'.Reached (log ++ [e]) := by
  refine ⟨turns,hs,?_,hr⟩
  rw [pushDraws_concat,hdraw,List.append_nil]
  exact hst

theorem new_reached {capacity : BitVec 64} {q₀ : MpmcQueue T n m}
    (h : new capacity = .ok q₀) : q₀.Reached [] ∧ q₀.capacity = capacity := by
  unfold new at h
  split_ifs at h with hcheck
  cases h
  refine ⟨⟨fun _ => 0,?_,?_,?_⟩,rfl⟩
  · constructor
    · exact Ticketed.init _
    · exact Ticketed.init _
    · intro s
      rfl
    · intro i t ht
      cases ht
    · intro j t ht
      cases ht
  · constructor
    · rfl
    · intro i p hp
      cases hp
    · intro i t v hv
      cases hv
    · intro t _ _
      rfl
    · intro j t v hv
      cases hv
    · intro t v hmem
      cases hmem
  · constructor <;> simp [popDraws,pushes,pops]

section Step

variable {k : Nat} (hk : k ≤ 31) (hcap : q.capacity.toNat = 2 ^ k)
include hk hcap

theorem write_reached (hn : n < 2 ^ 31) (h : q.Reached log) (i : Fin n) (v : T) :
    (q.write i v).1.Reached (log ++ [(q.write i v).2]) ∧
      (q.write i v).1.capacity = q.capacity := by
  obtain ⟨turns,hs,hst,hr⟩ := h
  have horder : popDraws log ++ [] = List.range q.popTicket :=
    (List.append_nil _).trans hr.popOrder
  unfold write
  cases hi : q.writers i with
  | idle =>
    refine ⟨⟨turns,hs.drawPush hi v,?_,hr.concat rfl rfl rfl horder⟩,rfl⟩
    rw [pushDraws_concat]
    exact hst.drawPush hs hi v
  | waiting value t =>
    have hticket : (q.writers i).ticket = some t := by rw [hi]; rfl
    dsimp only
    split_ifs with hturn
    · have hnow : ∀ u, (Writer.admitted value t).inside = some u →
          turns (u % q.capacity.toNat) = 2 * (u / q.capacity.toNat) := by
        rintro u ⟨⟩
        exact hs.write_turn hk hcap hn hticket hturn
      exact ⟨.concat rfl (hs.withWriter q.contents (by rw [hticket]; rfl) hnow)
        (hst.withWriter (by rw [hi]; rfl) (by rw [hi]; rfl)) (hr.concat rfl rfl rfl horder),rfl⟩
    · exact ⟨.concat rfl hs hst (hr.concat rfl rfl rfl horder),rfl⟩
  | admitted value t =>
    have hnow : ∀ u, (Writer.filled value t).inside = some u →
        turns (u % q.capacity.toNat) = 2 * (u / q.capacity.toNat) := by
      rintro u ⟨⟩
      exact hs.writing i t (by rw [hi]; rfl)
    dsimp only
    rw [idx_eq hcap hk]
    exact ⟨.concat rfl (hs.withWriter _ (by rw [hi]; rfl) hnow) (hst.fill hs hi)
      (hr.concat rfl rfl rfl horder),rfl⟩
  | filled value t =>
    have hinside : (q.writers i).inside = some t := by rw [hi]; rfl
    have hturn := hs.writing i t hinside
    have hmem := hst.job i (t,value) (by rw [hi]; rfl)
    have hone : (1 : BitVec 32).toNat = 1 := rfl
    have hword : (q.writeTurn t + 1).toNat = (turns (t % q.capacity.toNat) + 1) % 2 ^ 32 := by
      rw [BitVec.toNat_add,hone,writeTurn_toNat hk hcap,hturn]
      omega
    dsimp only
    rw [idx_eq hcap hk]
    exact ⟨.concat rfl (hs.publishWriter hinside hword) (hst.publishWriter hs hi _)
      (hr.publishWriter hturn hmem rfl rfl),rfl⟩

theorem read_reached (hm : m < 2 ^ 31) (h : q.Reached log) (j : Fin m) :
    ∃ q' e, q.read j = .ok (q',e) ∧ q'.Reached (log ++ [e]) ∧ q'.capacity = q.capacity := by
  obtain ⟨turns,hs,hst,hr⟩ := h
  have horder : popDraws log ++ [] = List.range q.popTicket :=
    (List.append_nil _).trans hr.popOrder
  unfold read
  cases hj : q.readers j with
  | idle =>
    have hnext : popDraws log ++ [q.popTicket] = List.range (q.popTicket + 1) := by
      rw [hr.popOrder,List.range_succ]
    exact ⟨_,_,rfl,.concat rfl (hs.drawPop hj) (hst.withReader _ (by rw [hj]; rfl))
      (hr.concat rfl rfl rfl hnext),rfl⟩
  | waiting t =>
    have hticket : (q.readers j).ticket = some t := by rw [hj]; rfl
    by_cases hturn : q.turn (q.idx t) = q.readTurn t
    · have hnow : ∀ u, (Reader.admitted t : Reader T).inside = some u →
          turns (u % q.capacity.toNat) = 2 * (u / q.capacity.toNat) + 1 := by
        rintro u ⟨⟩
        exact hs.read_turn hk hcap hm hticket hturn
      exact ⟨_,_,if_pos hturn,.concat rfl (hs.withReader q.contents (by rw [hticket]; rfl) hnow)
        (hst.withReader q.popTicket (by rw [hj]; rfl)) (hr.concat rfl rfl rfl horder),rfl⟩
    · exact ⟨_,_,if_neg hturn,.concat rfl hs hst (hr.concat rfl rfl rfl horder),rfl⟩
  | admitted t =>
    obtain ⟨v,hslot,hmem⟩ := hst.present hs hj
    have hnow : ∀ u, (Reader.moved v t).inside = some u →
        turns (u % q.capacity.toNat) = 2 * (u / q.capacity.toNat) + 1 := by
      rintro u ⟨⟩
      exact hs.reading j t (by rw [hj]; rfl)
    simp only [idx_eq hcap hk,hslot]
    exact ⟨_,_,rfl,.concat rfl (hs.withReader _ (by rw [hj]; rfl) hnow) (hst.move hs hj hmem)
      (hr.concat rfl rfl rfl horder),rfl⟩
  | moved v t =>
    have hinside : (q.readers j).inside = some t := by rw [hj]; rfl
    have hturn := hs.reading j t hinside
    have hmem := (hst.taken j t v (by rw [hj]; rfl)).1
    have hone : (1 : BitVec 32).toNat = 1 := rfl
    have hword : (q.readTurn t + 1).toNat = (turns (t % q.capacity.toNat) + 1) % 2 ^ 32 := by
      rw [BitVec.toNat_add,hone,readTurn_toNat hk hcap,hturn]
      omega
    dsimp only
    rw [idx_eq hcap hk]
    exact ⟨_,_,rfl,.concat rfl (hs.publishReader hinside hword) (hst.publishReader hs hj _)
      (hr.publishReader hturn hmem rfl rfl),rfl⟩

theorem step_reached (hn : n < 2 ^ 31) (hm : m < 2 ^ 31) (h : q.Reached log)
    (a : MpmcAction T n m) :
    ∃ q' e, q.step a = .ok (q',e) ∧ q'.Reached (log ++ [e]) ∧ q'.capacity = q.capacity := by
  cases a with
  | write i v =>
    obtain ⟨hreached,hsame⟩ := write_reached hk hcap hn h i v
    exact ⟨_,_,rfl,hreached,hsame⟩
  | read j => exact read_reached hk hcap hm h j

end Step

/-- The slot that a thread is inside of: it has observed its turn there and not published the
next one. -/
def critical (q : MpmcQueue T n m) : Fin n ⊕ Fin m → Option Nat
  | .inl i => (q.writers i).inside.map q.idx
  | .inr j => (q.readers j).inside.map q.idx

/-- What the tickets guarantee after the history `log`. -/
structure TicketLaw (q : MpmcQueue T n m) (log : List (MpmcEvent T)) : Prop where
  pushOrder : (pushDraws log).map Prod.fst = List.range q.pushTicket
  popOrder : popDraws log = List.range q.popTicket
  exclusive : ∀ a b s, q.critical a = some s → q.critical b = some s → a = b
  returned : ∀ p ∈ pops log, p ∈ pushDraws log
  written : ∀ p ∈ pushes log, p ∈ pushDraws log
  returnedOnce : ((pops log).map Prod.fst).Nodup
  writtenOnce : ((pushes log).map Prod.fst).Nodup
  pushing : ∀ p ∈ pushDraws log, p ∈ pushes log ∨ ∃ i, (q.writers i).job = some p
  popping : ∀ t ∈ popDraws log, t ∈ (pops log).map Prod.fst ∨ ∃ j, (q.readers j).ticket = some t
  kept : ∀ t v, (t,v) ∈ pushes log →
    (t,v) ∈ pops log ∨ q.contents (q.idx t) = some v ∨ ∃ j, (q.readers j).taken = some (t,v)
  unused : ∀ i v t, q.writers i = .admitted v t → q.contents (q.idx t) = none

section Law

variable {k : Nat} (hk : k ≤ 31) (hcap : q.capacity.toNat = 2 ^ k)
include hk hcap

theorem Scheduled.exclusive (h : q.Scheduled turns) (a b : Fin n ⊕ Fin m) (s : Nat)
    (ha : q.critical a = some s) (hb : q.critical b = some s) : a = b := by
  have hslot : ∀ {o : Option Nat}, o.map q.idx = some s →
      ∃ t, o = some t ∧ t % q.capacity.toNat = s := by
    intro o ho
    obtain ⟨t,ht,rfl⟩ := Option.map_eq_some_iff.mp ho
    exact ⟨t,ht,(idx_eq hcap hk t).symm⟩
  rcases a with i | j <;> rcases b with i' | j' <;> obtain ⟨t,ht,hts⟩ := hslot ha <;>
    obtain ⟨u,hu,hus⟩ := hslot hb
  · rw [h.writer_unique ht hu (hts.trans hus.symm)]
  · exact absurd (hts.trans hus.symm) (h.writer_reader ht hu)
  · exact absurd (hus.trans hts.symm) (h.writer_reader hu ht)
  · rw [h.reader_unique ht hu (hts.trans hus.symm)]

theorem Reached.ticketLaw (h : q.Reached log) : q.TicketLaw log := by
  obtain ⟨turns,hs,hst,hr⟩ := h
  have hnodup : ((pushDraws log).map Prod.fst).Nodup := by
    rw [hst.order]
    exact List.nodup_range
  have hsame : ∀ {p p' : Nat × T}, p ∈ pushDraws log → p' ∈ pushDraws log → p.1 = p'.1 → p = p' :=
    fun hp hp' => List.inj_on_of_nodup_map hnodup hp hp'
  constructor
  · exact hst.order
  · exact hr.popOrder
  · exact hs.exclusive hk hcap
  · exact hr.poppedDrawn
  · exact hr.pushedDrawn
  · exact hr.poppedOnce
  · exact hr.pushedOnce
  · rintro ⟨t,v⟩ hp
    have hlt : t < q.pushTicket := by
      rw [← List.mem_range,← hst.order]
      exact List.mem_map_of_mem hp
    rcases Nat.lt_or_ge (t / q.capacity.toNat) ((turns (t % q.capacity.toNat) + 1) / 2) with
      hover | hpending
    · obtain ⟨p',hp',ht⟩ := List.mem_map.mp ((hr.pushed t).mpr hover)
      rw [← hsame (hr.pushedDrawn p' hp') hp ht]
      exact .inl hp'
    · obtain ⟨i,hi⟩ := hs.pushes.holder t hlt hpending
      obtain ⟨p',hp',ht⟩ := Option.map_eq_some_iff.mp hi
      rw [← hsame (hst.job i p' hp') hp ht]
      exact .inr ⟨i,hp'⟩
  · intro t ht
    rw [hr.popOrder,List.mem_range] at ht
    rcases Nat.lt_or_ge (t / q.capacity.toNat) (turns (t % q.capacity.toNat) / 2) with
      hover | hpending
    · exact .inl ((hr.popped t).mpr hover)
    · exact .inr (hs.pops.holder t ht hpending)
  · intro t v hp
    have hmem := hr.pushedDrawn (t,v) hp
    have hover := (hr.pushed t).mp (List.mem_map_of_mem hp)
    rcases Nat.lt_or_ge (t / q.capacity.toNat) (turns (t % q.capacity.toNat) / 2) with
      hread | hunread
    · obtain ⟨p',hp',ht⟩ := List.mem_map.mp ((hr.popped t).mpr hread)
      rw [← hsame (hr.poppedDrawn p' hp') hmem ht]
      exact .inl hp'
    · rw [idx_eq hcap hk]
      by_cases htaken : ∃ j u, (q.readers j).taken = some (t,u)
      · obtain ⟨j,u,hu⟩ := htaken
        rw [← hsame (hst.taken j t u hu).1 hmem rfl]
        exact .inr (.inr ⟨j,hu⟩)
      · exact .inr (.inl (hst.untaken t v hmem (by omega) fun j u hu => htaken ⟨j,u,hu⟩))
  · intro i v t hi
    have hinside : (q.writers i).inside = some t := by rw [hi]; rfl
    rw [idx_eq hcap hk]
    refine hst.unfilled t (hs.writing i t hinside) fun i' u hu => ?_
    rw [hs.writer_unique (Writer.inside_of_stored hu) hinside rfl,hi] at hu
    cases hu

end Law

/-- For every power of two from `2` to `2 ^ 31` and any numbers of writers and readers below
`2 ^ 31`, every interleaving of their steps runs through and obeys the ticket protocol. -/
theorem mpmc_ticket_protocol (k n m : Nat) (hpos : 1 ≤ k) (hk : k ≤ 31) (hn : n < 2 ^ 31)
    (hm : m < 2 ^ 31) :
    ∃ q₀ : MpmcQueue T n m, new (BitVec.ofNat 64 (2 ^ k)) = .ok q₀ ∧
      ∀ actions, ∃ q log, runOut step q₀ actions = .ok (q,log) ∧ q.TicketLaw log := by
  have hcheck := ofNat_pow_checked (w := 64) hpos (by omega)
  have hpow := toNat_ofNat_pow (w := 64) (show k < 64 by omega)
  have hkeeps : ∀ (q : MpmcQueue T n m) a log,
      q.Reached log ∧ q.capacity = BitVec.ofNat 64 (2 ^ k) →
      ∃ q' e, q.step a = .ok (q',e) ∧
        q'.Reached (log ++ [e]) ∧ q'.capacity = BitVec.ofNat 64 (2 ^ k) := by
    rintro q a log ⟨hq,hsize⟩
    obtain ⟨q',e,hstep,hreached,hsame⟩ := step_reached hk (by rw [hsize]; exact hpow) hn hm hq a
    exact ⟨q',e,hstep,hreached,hsame.trans hsize⟩
  refine ⟨_,dif_pos hcheck,?_⟩
  intro actions
  obtain ⟨q,log,hrun,hreached,hsize⟩ :=
    runOut_reaches hkeeps actions _ [] (new_reached (dif_pos hcheck))
  exact ⟨q,log,hrun,hreached.ticketLaw hk (by rw [hsize]; exact hpow)⟩

/-- The smallest queue with three writers and two readers. -/
theorem mpmc_ticket_protocol_two :
    ∃ q₀ : MpmcQueue Nat 3 2, new (BitVec.ofNat 64 (2 ^ 1)) = .ok q₀ ∧
      ∀ actions, ∃ q log, runOut step q₀ actions = .ok (q,log) ∧ q.TicketLaw log :=
  mpmc_ticket_protocol 1 3 2 (by decide) (by decide) (by decide) (by decide)

end MpmcQueue

end Aethon.Concurrent
