import Aethon.Concurrent.MpmcProtocol
import Aethon.Framework.Futex

/-!
# The blocking calls of the multi-producer multi-consumer queue

`blockingWrite` and `blockingRead` as the steps of the queue with the futex around them: a thread
that has loaded a wrong turn a thousand times sleeps on the turn of its slot, and a thread that has
published a turn wakes one sleeper of the slot. All threads make blocking calls: the spinning calls
publish without a wake-up.
-/

namespace Aethon.Concurrent

open Framework

variable {T : Type} {n m : Nat}

def MpmcAction.thread : MpmcAction T n m → Fin n ⊕ Fin m
  | .write i _ => .inl i
  | .read j => .inr j

namespace MpmcQueue

/-- The slot of a thread that waits for its turn, and the turn. -/
def awaits (q : MpmcQueue T n m) : Fin n ⊕ Fin m → Option (Nat × BitVec 32)
  | .inl i =>
      match q.writers i with
      | .waiting _ ticket => some (q.idx ticket,q.writeTurn ticket)
      | _ => none
  | .inr j =>
      match q.readers j with
      | .waiting ticket => some (q.idx ticket,q.readTurn ticket)
      | _ => none

/-- The slot of a thread whose next step publishes a turn. -/
def publishes (q : MpmcQueue T n m) : Fin n ⊕ Fin m → Option Nat
  | .inl i =>
      match q.writers i with
      | .filled _ ticket => some (q.idx ticket)
      | _ => none
  | .inr j =>
      match q.readers j with
      | .moved _ ticket => some (q.idx ticket)
      | _ => none

/-- The thread is in no call. -/
def Idle (q : MpmcQueue T n m) : Fin n ⊕ Fin m → Prop
  | .inl i => q.writers i = .idle
  | .inr j => q.readers j = .idle

end MpmcQueue

/-- The queue, where its threads stand with the kernel, and their `spin_count`. -/
structure BlockingQueue (T : Type) (n m : Nat) where
  queue : MpmcQueue T n m
  pause : Fin n ⊕ Fin m → Pause (BitVec 32)
  spins : Fin n ⊕ Fin m → BitVec 32

/-- A thread takes a step, where the kernel may have to choose a sleeper, or the sleep of a thread
ends by itself. -/
inductive BlockingAction (T : Type) (n m : Nat) where
  | run (action : MpmcAction T n m) (choice : Option (Fin n ⊕ Fin m))
  | interrupt (thread : Fin n ⊕ Fin m)

namespace BlockingQueue

def new (capacity : BitVec 64) : Except String (BlockingQueue T n m) := do
  let queue ← MpmcQueue.new capacity
  return ⟨queue,fun _ => .running,fun _ => 0⟩

/-- What a thread does after a step of the queue, and its `spin_count` then. -/
def after (q : MpmcQueue T n m) (x : Fin n ⊕ Fin m) (spins : BitVec 32) :
    Pause (BitVec 32) × BitVec 32 :=
  match q.awaits x with
  | some (slot,expected) =>
      if q.turn slot = expected then (.running,spins)
      else if spins.toNat < 1000 then (.running,spins + 1)
      else (.refused slot (q.turn slot),spins + 1)
  | none =>
      match q.publishes x with
      | some slot => (.waking slot,0)
      | none => (.running,0)

def run (b : BlockingQueue T n m) (a : MpmcAction T n m) (choice : Option (Fin n ⊕ Fin m)) :
    Checked (BlockingQueue T n m × MpmcEvent T) :=
  match b.pause a.thread with
  | .running => do
      let (queue,e) ← b.queue.step a
      let (pause,spins) := after b.queue a.thread (b.spins a.thread)
      return (⟨queue,Function.update b.pause a.thread pause,
        Function.update b.spins a.thread spins⟩,e)
  | .refused slot old =>
      .ok ({ b with pause := futexWait b.queue.turn b.pause a.thread slot old },.internal)
  | .asleep _ => .ok (b,.internal)
  | .waking slot =>
      .ok ({ b with
        pause := Function.update (futexWake b.pause slot choice) a.thread .running },.internal)

def interrupted (b : BlockingQueue T n m) (x : Fin n ⊕ Fin m) : BlockingQueue T n m :=
  match b.pause x with
  | .asleep _ => { b with pause := Function.update b.pause x .running }
  | _ => b

def step (b : BlockingQueue T n m) :
    BlockingAction T n m → Checked (BlockingQueue T n m × MpmcEvent T)
  | .run a choice => b.run a choice
  | .interrupt x => .ok (b.interrupted x,.internal)

end BlockingQueue

namespace MpmcQueue

variable {q q' : MpmcQueue T n m} {a : MpmcAction T n m} {e : MpmcEvent T}

theorem awaits_inl {i : Fin n} {slot : Nat} {expected : BitVec 32} :
    q.awaits (.inl i) = some (slot,expected) ↔
      ∃ v t, q.writers i = .waiting v t ∧ q.idx t = slot ∧ q.writeTurn t = expected := by
  cases hi : q.writers i <;> simp [awaits,hi]

theorem awaits_inr {j : Fin m} {slot : Nat} {expected : BitVec 32} :
    q.awaits (.inr j) = some (slot,expected) ↔
      ∃ t, q.readers j = .waiting t ∧ q.idx t = slot ∧ q.readTurn t = expected := by
  cases hj : q.readers j <;> simp [awaits,hj]

theorem awaits_eq {x : Fin n ⊕ Fin m} (hcap : q'.capacity = q.capacity)
    (hwriters : ∀ i, x = .inl i → q'.writers i = q.writers i)
    (hreaders : ∀ j, x = .inr j → q'.readers j = q.readers j) : q'.awaits x = q.awaits x := by
  cases x with
  | inl i => simp only [awaits,hwriters i rfl,idx,writeTurn,mask,shift,hcap]
  | inr j => simp only [awaits,hreaders j rfl,idx,readTurn,mask,shift,hcap]

/-- What a step of a writer leaves as it is. -/
theorem write_frame (q : MpmcQueue T n m) (i : Fin n) (v : T) :
    (q.write i v).1.capacity = q.capacity ∧ (q.write i v).1.readers = q.readers ∧
      (∀ i', i' ≠ i → (q.write i v).1.writers i' = q.writers i') ∧
      ∀ slot, (q.write i v).1.turn slot ≠ q.turn slot → q.publishes (.inl i) = some slot := by
  unfold write
  cases hi : q.writers i with
  | idle =>
    exact ⟨rfl,rfl,fun i' hne => Function.update_of_ne hne _ _,fun slot hslot => absurd rfl hslot⟩
  | waiting value t =>
    dsimp only
    split_ifs
    · exact ⟨rfl,rfl,fun i' hne => Function.update_of_ne hne _ _,fun slot hslot => absurd rfl hslot⟩
    · exact ⟨rfl,rfl,fun _ _ => rfl,fun slot hslot => absurd rfl hslot⟩
  | admitted value t =>
    exact ⟨rfl,rfl,fun i' hne => Function.update_of_ne hne _ _,fun slot hslot => absurd rfl hslot⟩
  | filled value t =>
    refine ⟨rfl,rfl,fun i' hne => Function.update_of_ne hne _ _,?_⟩
    intro slot hslot
    by_cases hs : slot = q.idx t
    · simp only [publishes,hi,hs]
    · exact absurd (Function.update_of_ne hs _ _) hslot

/-- What a step of a reader leaves as it is. -/
theorem read_frame {j : Fin m} (h : q.read j = .ok (q',e)) :
    q'.capacity = q.capacity ∧ q'.writers = q.writers ∧
      (∀ j', j' ≠ j → q'.readers j' = q.readers j') ∧
      ∀ slot, q'.turn slot ≠ q.turn slot → q.publishes (.inr j) = some slot := by
  unfold read at h
  cases hj : q.readers j with
  | idle =>
    rw [hj] at h
    cases h
    exact ⟨rfl,rfl,fun j' hne => Function.update_of_ne hne _ _,fun slot hslot => absurd rfl hslot⟩
  | waiting t =>
    rw [hj] at h
    dsimp only at h
    split_ifs at h
    · cases h
      exact ⟨rfl,rfl,fun j' hne => Function.update_of_ne hne _ _,fun slot hslot => absurd rfl hslot⟩
    · cases h
      exact ⟨rfl,rfl,fun _ _ => rfl,fun slot hslot => absurd rfl hslot⟩
  | admitted t =>
    rw [hj] at h
    dsimp only at h
    split at h
    · cases h
    · cases h
      exact ⟨rfl,rfl,fun j' hne => Function.update_of_ne hne _ _,fun slot hslot => absurd rfl hslot⟩
  | moved v t =>
    rw [hj] at h
    cases h
    refine ⟨rfl,rfl,fun j' hne => Function.update_of_ne hne _ _,?_⟩
    intro slot hslot
    by_cases hs : slot = q.idx t
    · simp only [publishes,hj,hs]
    · exact absurd (Function.update_of_ne hs _ _) hslot

/-- A step concerns its thread only, and the turn of a slot only if it publishes. -/
theorem step_frame (h : q.step a = .ok (q',e)) :
    (∀ y, y ≠ a.thread → q'.awaits y = q.awaits y) ∧
      ∀ slot, q'.turn slot ≠ q.turn slot → q.publishes a.thread = some slot := by
  cases a with
  | write i v =>
    obtain ⟨hcap,hreaders,hwriters,hturn⟩ := q.write_frame i v
    rw [Except.ok.inj h] at hcap hreaders hwriters hturn
    refine ⟨fun y hy => awaits_eq hcap ?_ ?_,hturn⟩
    · intro i' hi'
      apply hwriters i'
      rintro rfl
      exact hy hi'
    · intro j _
      rw [hreaders]
  | read j =>
    obtain ⟨hcap,hwriters,hreaders,hturn⟩ := read_frame h
    refine ⟨fun y hy => awaits_eq hcap ?_ ?_,hturn⟩
    · intro i _
      rw [hwriters]
    · intro j' hj'
      apply hreaders j'
      rintro rfl
      exact hy hj'

/-- A step with a wrong turn changes nothing. -/
theorem step_refused {slot : Nat} {expected : BitVec 32} (h : q.step a = .ok (q',e))
    (hawaits : q.awaits a.thread = some (slot,expected)) (hturn : q.turn slot ≠ expected) :
    q' = q := by
  cases a with
  | write i v =>
    obtain ⟨value,t,hi,rfl,rfl⟩ := awaits_inl.mp hawaits
    have heq := Except.ok.inj h
    simp only [write,hi,if_neg hturn] at heq
    cases heq
    rfl
  | read j =>
    obtain ⟨t,hj,rfl,rfl⟩ := awaits_inr.mp hawaits
    change q.read j = .ok (q',e) at h
    simp only [read,hj,if_neg hturn] at h
    cases h
    rfl

theorem publishes_awaits {x : Fin n ⊕ Fin m} {slot : Nat} (h : q.publishes x = some slot) :
    q.awaits x = none := by
  cases x with
  | inl i => cases hi : q.writers i <;> simp_all [publishes,awaits]
  | inr j => cases hj : q.readers j <;> simp_all [publishes,awaits]

end MpmcQueue

namespace BlockingQueue

variable {b b' : BlockingQueue T n m} {e : MpmcEvent T}

/-- Where the threads stand with the kernel agrees with the queue. -/
def Attended (b : BlockingQueue T n m) : Prop :=
  Framework.Attended b.queue.turn b.queue.awaits b.pause

/-- The kernel wakes the thread whose turn it is, if that one sleeps. -/
def WakesDue (b : BlockingQueue T n m) : BlockingAction T n m → Prop
  | .run a choice => ∀ slot, b.pause a.thread = .waking slot →
      Framework.WakesDue b.queue.turn b.queue.awaits b.pause slot choice
  | .interrupt _ => True

/-- The step of the queue of a running thread. -/
theorem Attended.queueStep (h : b.Attended) {a : MpmcAction T n m} {q' : MpmcQueue T n m}
    (hx : b.pause a.thread = .running) (hstep : b.queue.step a = .ok (q',e)) :
    Framework.Attended q'.turn q'.awaits (Function.update b.pause a.thread
      (after b.queue a.thread (b.spins a.thread)).1) := by
  obtain ⟨hothers,hturn⟩ := MpmcQueue.step_frame hstep
  apply Framework.Attended.update h hothers
  · intro slot hslot
    have hpublishes := hturn slot hslot
    rw [after,MpmcQueue.publishes_awaits hpublishes,hpublishes]
  · intro slot hasleep
    unfold after at hasleep
    split at hasleep
    · split_ifs at hasleep
    · split at hasleep <;> cases hasleep
  · intro slot old hrefused
    unfold after at hrefused
    split at hrefused
    · rename_i slot' expected hawaits
      split_ifs at hrefused with hne
      cases hrefused
      rw [MpmcQueue.step_refused hstep hawaits hne]
      exact ⟨expected,hawaits,hne⟩
    · split at hrefused <;> cases hrefused
  · intro slot hwaking
    rw [hx] at hwaking
    cases hwaking

theorem step_attended {a : BlockingAction T n m} (h : b.Attended) (hwakes : b.WakesDue a)
    (hstep : b.step a = .ok (b',e)) : b'.Attended := by
  cases a with
  | run a choice =>
    change b.run a choice = .ok (b',e) at hstep
    unfold run at hstep
    cases hx : b.pause a.thread with
    | running =>
      rw [hx] at hstep
      obtain ⟨⟨q',e'⟩,hqueue,hret⟩ := (bind_ok_iff ..).mp hstep
      cases hret
      exact h.queueStep hx hqueue
    | refused slot old =>
      rw [hx] at hstep
      cases hstep
      exact Framework.Attended.wait h hx
    | asleep slot =>
      rw [hx] at hstep
      cases hstep
      exact h
    | waking slot =>
      rw [hx] at hstep
      cases hstep
      exact Framework.Attended.wake h hx (hwakes slot hx)
  | interrupt x =>
    cases hstep
    unfold interrupted
    split
    · rename_i slot hx
      exact Framework.Attended.interrupt h hx
    · exact h

end BlockingQueue

namespace MpmcQueue

variable {q : MpmcQueue T n m} {log : List (MpmcEvent T)} {turns : Nat → Nat}

/-- A step that leaves the queue as it is. -/
theorem Reached.stutter (h : q.Reached log) : q.Reached (log ++ [.internal]) := by
  obtain ⟨turns,hs,hst,hr⟩ := h
  exact .concat rfl hs hst (hr.concat rfl rfl rfl ((List.append_nil _).trans hr.popOrder))

section Turns

variable {k : Nat} (hk : k ≤ 31) (hcap : q.capacity.toNat = 2 ^ k)
include hk hcap

/-- The stored turn of a slot at the turn of a writer is the one that the writer expects. -/
theorem Scheduled.writeTurn_eq (h : q.Scheduled turns) {t : Nat}
    (ht : turns (t % q.capacity.toNat) = 2 * (t / q.capacity.toNat)) :
    q.turn (q.idx t) = q.writeTurn t := by
  apply BitVec.eq_of_toNat_eq
  rw [idx_eq hcap hk,h.turn,writeTurn_toNat hk hcap,ht]

theorem Scheduled.readTurn_eq (h : q.Scheduled turns) {t : Nat}
    (ht : turns (t % q.capacity.toNat) = 2 * (t / q.capacity.toNat) + 1) :
    q.turn (q.idx t) = q.readTurn t := by
  apply BitVec.eq_of_toNat_eq
  rw [idx_eq hcap hk,h.turn,readTurn_toNat hk hcap,ht]

end Turns

/-- Every thread is in no call, or it waits for a turn that has not come. -/
def Quiet (q : MpmcQueue T n m) : Prop :=
  ∀ x, q.Idle x ∨ ∃ slot expected, q.awaits x = some (slot,expected) ∧ q.turn slot ≠ expected

/-- Calls wait for an element or for a free slot that nobody is about to provide. -/
def Justified (q : MpmcQueue T n m) : Prop :=
  ((∀ i, q.writers i = .idle) ∧ ∀ j t, (q.readers j).ticket = some t → q.pushTicket ≤ t) ∨
  ((∀ j, q.readers j = .idle) ∧
    ∀ i t, (q.writers i).ticket = some t → q.popTicket + q.capacity.toNat ≤ t)

theorem Quiet.writer (h : q.Quiet) {i : Fin n} {t : Nat} (hi : (q.writers i).ticket = some t) :
    q.turn (q.idx t) ≠ q.writeTurn t := by
  rcases h (.inl i) with hidle | ⟨slot,expected,hawaits,hne⟩
  · change q.writers i = .idle at hidle
    rw [hidle] at hi
    cases hi
  · obtain ⟨v,u,hwaiting,rfl,rfl⟩ := awaits_inl.mp hawaits
    rw [hwaiting] at hi
    cases hi
    exact hne

theorem Quiet.reader (h : q.Quiet) {j : Fin m} {t : Nat} (hj : (q.readers j).ticket = some t) :
    q.turn (q.idx t) ≠ q.readTurn t := by
  rcases h (.inr j) with hidle | ⟨slot,expected,hawaits,hne⟩
  · change q.readers j = .idle at hidle
    rw [hidle] at hj
    cases hj
  · obtain ⟨u,hwaiting,rfl,rfl⟩ := awaits_inr.mp hawaits
    rw [hwaiting] at hj
    cases hj
    exact hne

theorem Writer.idle_of_ticket {w : Writer T} (h : w.ticket = none) : w = .idle := by
  cases w <;> first | rfl | cases h

theorem Reader.idle_of_ticket {r : Reader T} (h : r.ticket = none) : r = .idle := by
  cases r <;> first | rfl | cases h

section Quiet

variable {k : Nat} (hk : k ≤ 31) (hcap : q.capacity.toNat = 2 ^ k)
include hk hcap

/-- A quiet reader waits for an element that is not published. -/
theorem Quiet.unpublished (h : q.Quiet) (hs : q.Scheduled turns) {j : Fin m} {t : Nat}
    (hj : (q.readers j).ticket = some t) :
    (turns (t % q.capacity.toNat) + 1) / 2 ≤ t / q.capacity.toNat := by
  have hpending := hs.pops.pending j t hj
  have hne : turns (t % q.capacity.toNat) ≠ 2 * (t / q.capacity.toNat) + 1 :=
    fun heq => h.reader hj (hs.readTurn_eq hk hcap heq)
  omega

/-- The first writer of a quiet queue waits for a slot that no reader has a ticket for. -/
theorem Quiet.full (h : q.Quiet) (hs : q.Scheduled turns) {i : Fin n} {t : Nat}
    (hi : (q.writers i).ticket = some t)
    (hfirst : ∀ u < t, u / q.capacity.toNat < (turns (u % q.capacity.toNat) + 1) / 2) :
    q.popTicket + q.capacity.toNat ≤ t := by
  have hpos : 0 < q.capacity.toNat := by
    rw [hcap]
    exact Nat.two_pow_pos k
  have hpending := hs.pushes.pending i t hi
  have hne : turns (t % q.capacity.toNat) ≠ 2 * (t / q.capacity.toNat) :=
    fun heq => h.writer hi (hs.writeTurn_eq hk hcap heq)
  have hvisit : 0 < t / q.capacity.toNat := by omega
  have hle : q.capacity.toNat ≤ t := (Nat.div_pos_iff.mp hvisit).2
  have hslot : (t - q.capacity.toNat) % q.capacity.toNat = t % q.capacity.toNat :=
    (Nat.mod_eq_sub_mod hle).symm
  have hback : (t - q.capacity.toNat) / q.capacity.toNat = t / q.capacity.toNat - 1 := by
    rw [Nat.div_eq_sub_div hpos hle,Nat.add_sub_cancel]
  have hdone := hfirst (t - q.capacity.toNat) (by omega)
  rw [hslot,hback] at hdone
  by_contra hlate
  obtain ⟨j,hj⟩ := hs.pops.holder (t - q.capacity.toNat) (by omega) (by rw [hslot,hback]; omega)
  have hquiet := h.unpublished hk hcap hs hj
  rw [hslot,hback] at hquiet
  omega

/-- A quiet queue waits for a reason: it is empty and only readers wait, or it is full and only
writers do. -/
theorem Quiet.justified (h : q.Quiet) (hs : q.Scheduled turns) : q.Justified := by
  have hover : ∀ t, t < q.pushTicket → (∀ i, (q.writers i).ticket ≠ some t) →
      t / q.capacity.toNat < (turns (t % q.capacity.toNat) + 1) / 2 := by
    intro t ht hnone
    by_contra hpending
    obtain ⟨i,hi⟩ := hs.pushes.holder t ht (by omega)
    exact hnone i hi
  by_cases hwriting : ∃ t i, (q.writers i).ticket = some t
  · right
    classical
    have hspec := Nat.find_spec hwriting
    obtain ⟨i,hi⟩ := hspec
    have hdrawn := hs.pushes.drawn i _ hi
    have hfirst : ∀ u < Nat.find hwriting,
        u / q.capacity.toNat < (turns (u % q.capacity.toNat) + 1) / 2 := by
      intro u hu
      apply hover u (by omega)
      intro i' hi'
      exact Nat.find_min hwriting hu ⟨i',hi'⟩
    have hfull := h.full hk hcap hs hi hfirst
    constructor
    · intro j
      apply Reader.idle_of_ticket
      by_contra hbusy
      obtain ⟨t,ht⟩ := Option.ne_none_iff_exists'.mp hbusy
      have hpop := hs.pops.drawn j t ht
      have hquiet := h.unpublished hk hcap hs ht
      have hdone := hfirst t (by omega)
      omega
    · intro i' t ht
      have hmin := Nat.find_min' hwriting ⟨i',ht⟩
      omega
  · left
    have hidle : ∀ i t, (q.writers i).ticket ≠ some t := fun i t ht => hwriting ⟨t,i,ht⟩
    constructor
    · intro i
      apply Writer.idle_of_ticket
      by_contra hbusy
      obtain ⟨t,ht⟩ := Option.ne_none_iff_exists'.mp hbusy
      exact hidle i t ht
    · intro j t ht
      by_contra hlate
      have hquiet := h.unpublished hk hcap hs ht
      have hdone := hover t (by omega) fun i => hidle i t
      omega

end Quiet

end MpmcQueue

namespace BlockingQueue

variable {b : BlockingQueue T n m} {log : List (MpmcEvent T)}

/-- Every blocking step is a step of the queue or leaves the queue as it is. -/
theorem step_reached {k : Nat} (hk : k ≤ 31) (hcap : b.queue.capacity.toNat = 2 ^ k)
    (hn : n < 2 ^ 31) (hm : m < 2 ^ 31) (h : b.queue.Reached log) (a : BlockingAction T n m) :
    ∃ b' e, b.step a = .ok (b',e) ∧ b'.queue.Reached (log ++ [e]) ∧
      b'.queue.capacity = b.queue.capacity := by
  cases a with
  | run a choice =>
    change ∃ b' e, b.run a choice = .ok (b',e) ∧ _
    unfold run
    cases hx : b.pause a.thread with
    | running =>
      obtain ⟨q',e,hstep,hreached,hsame⟩ := MpmcQueue.step_reached hk hcap hn hm h a
      simp only [hstep,bind,Except.bind]
      exact ⟨_,e,rfl,hreached,hsame⟩
    | refused slot old => exact ⟨_,_,rfl,h.stutter,rfl⟩
    | asleep slot => exact ⟨_,_,rfl,h.stutter,rfl⟩
    | waking slot => exact ⟨_,_,rfl,h.stutter,rfl⟩
  | interrupt x =>
    refine ⟨_,_,rfl,?_⟩
    unfold interrupted
    split
    · exact ⟨h.stutter,rfl⟩
    · exact ⟨h.stutter,rfl⟩

/-- The state after a run from the constructor. -/
structure Held (k : Nat) (b : BlockingQueue T n m) (log : List (MpmcEvent T)) : Prop where
  reached : b.queue.Reached log
  capacity : b.queue.capacity.toNat = 2 ^ k

theorem new_held {k : Nat} (hpos : 1 ≤ k) (hk : k ≤ 31) :
    ∃ b₀ : BlockingQueue T n m, new (BitVec.ofNat 64 (2 ^ k)) = .ok b₀ ∧ Held k b₀ [] ∧
      b₀.Attended := by
  have hcheck := ofNat_pow_checked (w := 64) hpos (by omega)
  have hnew : (MpmcQueue.new (BitVec.ofNat 64 (2 ^ k)) : Except String (MpmcQueue T n m)) = _ :=
    dif_pos hcheck
  obtain ⟨hreached,hsize⟩ := MpmcQueue.new_reached hnew
  refine ⟨_,by simp only [new,hnew,bind,Except.bind]; rfl,⟨hreached,?_⟩,
    Framework.Attended.init fun _ => rfl⟩
  rw [hsize]
  exact toNat_ofNat_pow (w := 64) (show k < 64 by omega)

theorem step_held {k : Nat} (hk : k ≤ 31) (hn : n < 2 ^ 31) (hm : m < 2 ^ 31) (h : Held k b log)
    (a : BlockingAction T n m) : ∃ b' e, b.step a = .ok (b',e) ∧ Held k b' (log ++ [e]) := by
  obtain ⟨b',e,hstep,hreached,hsame⟩ := step_reached hk h.capacity hn hm h.reached a
  exact ⟨b',e,hstep,hreached,by rw [hsame]; exact h.capacity⟩

/-- Whatever the kernel chooses, the blocking calls obey the ticket protocol. -/
theorem blocking_ticket_protocol (k n m : Nat) (hpos : 1 ≤ k) (hk : k ≤ 31) (hn : n < 2 ^ 31)
    (hm : m < 2 ^ 31) :
    ∃ b₀ : BlockingQueue T n m, new (BitVec.ofNat 64 (2 ^ k)) = .ok b₀ ∧
      ∀ actions, ∃ b log, runOut step b₀ actions = .ok (b,log) ∧ b.queue.TicketLaw log := by
  obtain ⟨b₀,hnew,hheld,_⟩ := new_held (T := T) (n := n) (m := m) hpos hk
  refine ⟨b₀,hnew,?_⟩
  intro actions
  obtain ⟨b,log,hrun,hend⟩ := runOut_reaches (I := Held k)
    (fun b a log h => step_held hk hn hm h a) actions b₀ [] hheld
  exact ⟨b,log,hrun,hend.reached.ticketLaw hk hend.capacity⟩

theorem blocking_ticket_protocol_two :
    ∃ b₀ : BlockingQueue Nat 3 2, new (BitVec.ofNat 64 (2 ^ 1)) = .ok b₀ ∧
      ∀ actions, ∃ b log, runOut step b₀ actions = .ok (b,log) ∧ b.queue.TicketLaw log :=
  blocking_ticket_protocol 1 3 2 (by decide) (by decide) (by decide) (by decide)

/-- A thread is in no call or asleep. -/
def AtRest (b : BlockingQueue T n m) : Prop :=
  ∀ x, b.pause x = .running ∧ b.queue.Idle x ∨ ∃ slot, b.pause x = .asleep slot

theorem AtRest.quiet (h : b.AtRest) (hattended : b.Attended) : b.queue.Quiet := by
  intro x
  rcases h x with ⟨_,hidle⟩ | ⟨slot,hasleep⟩
  · exact .inl hidle
  · right
    obtain ⟨expected,hawaits⟩ := hattended.asleep x slot hasleep
    refine ⟨slot,expected,hawaits,?_⟩
    rintro rfl
    obtain ⟨y,hy⟩ := hattended.woken x slot ⟨hasleep,hawaits⟩
    rcases h y with ⟨hrunning,_⟩ | ⟨slot',hsleeping⟩
    · rw [hy] at hrunning
      cases hrunning
    · rw [hy] at hsleeping
      cases hsleeping

/-- A thread whose turn has come does not sleep unless it is about to be woken, and all threads rest
only if the queue is empty for its readers or full for its writers. -/
def NoLostWakeup (b : BlockingQueue T n m) : Prop :=
  (∀ x slot expected, b.pause x = .asleep slot → b.queue.awaits x = some (slot,expected) →
    b.queue.turn slot = expected → ∃ y, b.pause y = .waking slot) ∧
  (b.AtRest → b.queue.Justified)

theorem Attended.noLostWakeup {k : Nat} (hk : k ≤ 31) (h : b.Attended) (hheld : Held k b log) :
    b.NoLostWakeup := by
  constructor
  · rintro x slot _ hasleep hawaits rfl
    exact h.woken x slot ⟨hasleep,hawaits⟩
  · intro hrest
    obtain ⟨turns,hs,_⟩ := hheld.reached
    exact (hrest.quiet h).justified hk hheld.capacity hs

/-- No wake-up is lost in a run from a good state whose wake-ups prefer the thread whose turn it
is. -/
theorem run_noLostWakeup {k : Nat} (hk : k ≤ 31) (hn : n < 2 ^ 31) (hm : m < 2 ^ 31)
    (hheld : Held k b []) (hattended : b.Attended) {actions : List (BlockingAction T n m)}
    (hwakes : Along WakesDue step b actions) :
    ∃ b' log, runOut step b actions = .ok (b',log) ∧ b'.NoLostWakeup := by
  obtain ⟨b',log,hrun,hend⟩ := runOut_reaches (I := Held k)
    (fun b a log h => step_held hk hn hm h a) actions b [] hheld
  have hattended' : b'.Attended :=
    runOut_invariant (I := fun b _ => b.Attended)
      (fun _ _ _ _ _ hi hc hstep => step_attended hi hc hstep) actions b b' [] log hattended hwakes
      hrun
  exact ⟨b',log,hrun,hattended'.noLostWakeup hk hend⟩

/-- If the kernel prefers the thread whose turn it is, no wake-up of the blocking calls is lost. -/
theorem blocking_no_lost_wakeup (k n m : Nat) (hpos : 1 ≤ k) (hk : k ≤ 31) (hn : n < 2 ^ 31)
    (hm : m < 2 ^ 31) :
    ∃ b₀ : BlockingQueue T n m, new (BitVec.ofNat 64 (2 ^ k)) = .ok b₀ ∧
      ∀ actions, Along WakesDue step b₀ actions →
        ∃ b log, runOut step b₀ actions = .ok (b,log) ∧ b.NoLostWakeup := by
  obtain ⟨b₀,hnew,hheld,hattended⟩ := new_held (T := T) (n := n) (m := m) hpos hk
  exact ⟨b₀,hnew,fun actions hwakes => run_noLostWakeup hk hn hm hheld hattended hwakes⟩

theorem blocking_no_lost_wakeup_two :
    ∃ b₀ : BlockingQueue Nat 3 2, new (BitVec.ofNat 64 (2 ^ 1)) = .ok b₀ ∧
      ∀ actions, Along WakesDue step b₀ actions →
        ∃ b log, runOut step b₀ actions = .ok (b,log) ∧ b.NoLostWakeup :=
  blocking_no_lost_wakeup 1 3 2 (by decide) (by decide) (by decide) (by decide)

end BlockingQueue

end Aethon.Concurrent
