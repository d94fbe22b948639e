import Aethon.Concurrent.MpmcBlocking

/-!
# Lost wake-ups of the blocking calls

`futex_wake` wakes one sleeper of a slot, and the kernel chooses which. With one writer and one
reader that is the thread whose turn it is. With more readers than slots it need not be: the woken
reader sleeps again, and the reader of the element that was published is never woken.
-/

namespace Aethon.Concurrent.BlockingQueue

open Framework

variable {T : Type} {n m : Nat}

/-- The kernel wakes a sleeper of the slot, if there is one. -/
def WakesOne (b : BlockingQueue T n m) : BlockingAction T n m → Prop
  | .run a choice => ∀ slot, b.pause a.thread = .waking slot → Framework.WakesOne b.pause slot choice
  | .interrupt _ => True

/-- Between two threads only the other one can sleep when one of them wakes. -/
theorem WakesOne.wakesDue {b : BlockingQueue T 1 1} {a : BlockingAction T 1 1}
    (h : b.WakesOne a) : b.WakesDue a := by
  cases a with
  | interrupt x => trivial
  | run a choice =>
    intro slot hwaking
    apply (h slot hwaking).due
    have hother : ∀ y, b.pause y = .asleep slot → y ≠ a.thread := by
      rintro y hy rfl
      rw [hwaking] at hy
      cases hy
    intro y z hy hz
    have hyne := hother y hy
    have hzne := hother z hz
    generalize a.thread = x at hyne hzne
    rcases x with i | i <;> rcases y with j | j <;> rcases z with l | l <;>
      simp_all [Subsingleton.elim i j,Subsingleton.elim j l]

/-- Between one writer and one reader the plain contract of the kernel is enough. -/
theorem pair_no_lost_wakeup (k : Nat) (hpos : 1 ≤ k) (hk : k ≤ 31) :
    ∃ b₀ : BlockingQueue T 1 1, new (BitVec.ofNat 64 (2 ^ k)) = .ok b₀ ∧
      ∀ actions, Along WakesOne step b₀ actions →
        ∃ b log, runOut step b₀ actions = .ok (b,log) ∧ b.NoLostWakeup := by
  obtain ⟨b₀,hnew,hheld,hattended⟩ := new_held (T := T) (n := 1) (m := 1) hpos hk
  refine ⟨b₀,hnew,?_⟩
  intro actions hwakes
  exact run_noLostWakeup hk (by decide) (by decide) hheld hattended
    (hwakes.mono (fun _ _ => WakesOne.wakesDue) actions b₀)

theorem pair_no_lost_wakeup_two :
    ∃ b₀ : BlockingQueue Nat 1 1, new (BitVec.ofNat 64 (2 ^ 1)) = .ok b₀ ∧
      ∀ actions, Along WakesOne step b₀ actions →
        ∃ b log, runOut step b₀ actions = .ok (b,log) ∧ b.NoLostWakeup :=
  pair_no_lost_wakeup 1 (by decide) (by decide)

section Spin

variable {b : BlockingQueue T n m}

theorem wakesOne_of_running {a : MpmcAction T n m} (hx : b.pause a.thread = .running)
    (choice : Option (Fin n ⊕ Fin m)) : b.WakesOne (.run a choice) := by
  intro slot hwaking
  rw [hx] at hwaking
  cases hwaking

variable {j : Fin m} {slot : Nat} {expected : BitVec 32} (hx : b.pause (.inr j) = .running)
  (hawaits : b.queue.awaits (.inr j) = some (slot,expected)) (hne : b.queue.turn slot ≠ expected)

include hx hawaits hne

/-- A load of a wrong turn. -/
theorem load_wrong : b.step (.run (.read j) none) = .ok ({ b with
      pause := Function.update b.pause (.inr j) (after b.queue (.inr j) (b.spins (.inr j))).1
      spins := Function.update b.spins (.inr j) (after b.queue (.inr j) (b.spins (.inr j))).2 },
      .internal) := by
  obtain ⟨t,hj,rfl,rfl⟩ := MpmcQueue.awaits_inr.mp hawaits
  have hread : b.queue.step (.read j) = .ok (b.queue,.internal) := by
    simp only [MpmcQueue.step,MpmcQueue.read,hj,if_neg hne]
  simp only [step,run,MpmcAction.thread,hx,hread,bind,Except.bind]
  rfl

/-- The reader loads a wrong turn `s` times. -/
theorem spins_lead (hzero : b.spins (.inr j) = 0) (s : Nat) (hs : s ≤ 1000) :
    Leads WakesOne step b
      { b with spins := Function.update b.spins (.inr j) (BitVec.ofNat 32 s) } := by
  induction s with
  | zero =>
    have hsame : Function.update b.spins (.inr j) (BitVec.ofNat 32 0) = b.spins := by
      rw [show BitVec.ofNat 32 0 = b.spins (.inr j) from hzero.symm,Function.update_eq_self]
    rw [hsame]
    exact Leads.refl b
  | succ s ih =>
    refine (ih (by omega)).trans (Leads.cons (wakesOne_of_running hx none)
      (load_wrong hx hawaits hne) ?_)
    have hlow : (BitVec.ofNat 32 s).toNat < 1000 := by
      rw [BitVec.toNat_ofNat]
      omega
    have hafter : after b.queue (.inr j) (BitVec.ofNat 32 s) =
        (.running,BitVec.ofNat 32 (s + 1)) := by
      simp only [after,hawaits,if_neg hne,if_pos hlow]
      rw [BitVec.ofNat_add]
      rfl
    simp only [Function.update_self,hafter,Function.update_idem]
    rw [← hx,Function.update_eq_self]
    exact Leads.refl _

/-- A reader that has spun enough sleeps at the next wrong turn. -/
theorem gives_up (hspun : 1000 ≤ (b.spins (.inr j)).toNat) :
    Leads WakesOne step b { b with
      pause := Function.update b.pause (.inr j) (.asleep slot)
      spins := Function.update b.spins (.inr j) (b.spins (.inr j) + 1) } := by
  refine Leads.cons (wakesOne_of_running hx none) (load_wrong hx hawaits hne) ?_
  have hafter : after b.queue (.inr j) (b.spins (.inr j)) =
      (.refused slot (b.queue.turn slot),b.spins (.inr j) + 1) := by
    simp only [after,hawaits,if_neg hne,if_neg (Nat.not_lt.mpr hspun)]
  rw [hafter]
  refine Leads.cons (a := .run (.read j) none) (b := .internal) ?_ ?_ (Leads.refl _)
  · intro slot' hwaking
    simp [MpmcAction.thread] at hwaking
  · simp [step,run,MpmcAction.thread,futexWait]

/-- A reader that spins on a wrong turn falls asleep. -/
theorem sleeps (hzero : b.spins (.inr j) = 0) :
    Leads WakesOne step b { b with
      pause := Function.update b.pause (.inr j) (.asleep slot)
      spins := Function.update b.spins (.inr j) 1001 } := by
  refine (spins_lead hx hawaits hne hzero 1000 le_rfl).trans ?_
  have hgives := gives_up (b := { b with spins := Function.update b.spins (.inr j) 1000 }) hx
    hawaits hne (by dsimp only; rw [Function.update_self]; decide)
  dsimp only at hgives
  rw [Function.update_self,Function.update_idem] at hgives
  exact hgives

end Spin

section Write

/-- The queue after a whole write of `v`. -/
def written (q : MpmcQueue T n m) (v : T) : MpmcQueue T n m :=
  { q with
    pushTicket := q.pushTicket + 1
    contents := Function.update q.contents (q.idx q.pushTicket) (some v)
    turn := Function.update q.turn (q.idx q.pushTicket) (q.writeTurn q.pushTicket + 1) }

variable {b : BlockingQueue T n m} {i : Fin n}

theorem write_step (hx : b.pause (.inl i) = .running) (v : T) :
    b.step (.run (.write i v) none) = .ok (⟨(b.queue.write i v).1,
      Function.update b.pause (.inl i) (after b.queue (.inl i) (b.spins (.inl i))).1,
      Function.update b.spins (.inl i) (after b.queue (.inl i) (b.spins (.inl i))).2⟩,
      (b.queue.write i v).2) := by
  simp only [step,run,MpmcAction.thread,hx,MpmcQueue.step,bind,Except.bind]
  rfl

/-- A writer whose turn it is writes, up to its wake-up. -/
theorem writes (hx : b.pause (.inl i) = .running) (hi : b.queue.writers i = .idle)
    (hturn : b.queue.turn (b.queue.idx b.queue.pushTicket) =
      b.queue.writeTurn b.queue.pushTicket) (v : T) :
    Leads WakesOne step b
      { queue := written b.queue v
        pause := Function.update b.pause (.inl i) (.waking (b.queue.idx b.queue.pushTicket))
        spins := Function.update b.spins (.inl i) 0 } := by
  simp only [written,MpmcQueue.idx,MpmcQueue.writeTurn,MpmcQueue.mask,MpmcQueue.shift] at hturn ⊢
  have hrunning : ∀ pause : Fin n ⊕ Fin m → Pause (BitVec 32),
      Function.update pause (.inl i) .running (.inl i) = .running :=
    fun pause => Function.update_self ..
  have hwriters : Function.update b.queue.writers i .idle = b.queue.writers := by
    rw [← hi,Function.update_eq_self]
  refine Leads.cons (wakesOne_of_running (a := .write i v) hx none) (write_step hx v) ?_
  simp only [MpmcQueue.write,after,MpmcQueue.awaits,MpmcQueue.publishes,hi]
  refine Leads.cons (wakesOne_of_running (a := .write i v) (hrunning _) none)
    (write_step (hrunning _) v) ?_
  simp only [MpmcQueue.write,after,MpmcQueue.awaits,Function.update_self,Function.update_idem,
    MpmcQueue.idx,MpmcQueue.writeTurn,MpmcQueue.mask,MpmcQueue.shift,if_pos hturn]
  refine Leads.cons (wakesOne_of_running (a := .write i v) (hrunning _) none)
    (write_step (hrunning _) v) ?_
  simp only [MpmcQueue.write,after,MpmcQueue.awaits,MpmcQueue.publishes,Function.update_self,
    Function.update_idem,MpmcQueue.idx,MpmcQueue.mask]
  refine Leads.cons (wakesOne_of_running (a := .write i v) (hrunning _) none)
    (write_step (hrunning _) v) ?_
  simp only [MpmcQueue.write,after,MpmcQueue.awaits,MpmcQueue.publishes,Function.update_self,
    Function.update_idem,MpmcQueue.idx,MpmcQueue.writeTurn,MpmcQueue.mask,MpmcQueue.shift,hwriters]
  exact Leads.refl _

/-- The wake-up of a sleeper of the slot. -/
theorem wakes {slot : Nat} {z : Fin n ⊕ Fin m} (hx : b.pause (.inl i) = .waking slot)
    (hz : b.pause z = .asleep slot) (v : T) :
    Leads WakesOne step b { b with
      pause := Function.update (Function.update b.pause z .running) (.inl i) .running } := by
  refine Leads.cons (a := .run (.write i v) (some z)) (b := .internal) ?_ ?_ (Leads.refl _)
  · intro slot' hwaking _
    change b.pause (.inl i) = .waking slot' at hwaking
    rw [hx] at hwaking
    cases hwaking
    exact ⟨z,rfl,hz⟩
  · simp only [step,run,MpmcAction.thread,hx,futexWake,if_pos hz]

/-- A write whose wake-up goes to a reader of another round leaves all sleepers asleep. -/
theorem writes_past {j : Fin m} {expected : BitVec 32} (hx : b.pause (.inl i) = .running)
    (hi : b.queue.writers i = .idle)
    (hturn : b.queue.turn (b.queue.idx b.queue.pushTicket) =
      b.queue.writeTurn b.queue.pushTicket)
    (hj : b.pause (.inr j) = .asleep (b.queue.idx b.queue.pushTicket))
    (hspun : 1000 ≤ (b.spins (.inr j)).toNat)
    (hawaits : b.queue.awaits (.inr j) = some (b.queue.idx b.queue.pushTicket,expected))
    (hne : b.queue.writeTurn b.queue.pushTicket + 1 ≠ expected) (v : T) :
    ∃ spins, Leads WakesOne step b ⟨written b.queue v,b.pause,spins⟩ := by
  let slot := b.queue.idx b.queue.pushTicket
  let asked := Function.update b.pause (.inl i) (.waking slot)
  let woken := Function.update (Function.update asked (.inr j) .running) (.inl i) .running
  let spins := Function.update b.spins (.inl i) 0
  have hwakes : Leads WakesOne step ⟨written b.queue v,asked,spins⟩
      ⟨written b.queue v,woken,spins⟩ := by
    have hsleeper : asked (.inr j) = .asleep slot := by
      rw [← hj]
      exact Function.update_of_ne Sum.inr_ne_inl ..
    exact wakes (Function.update_self ..) hsleeper v
  have hgives : Leads WakesOne step ⟨written b.queue v,woken,spins⟩ ⟨written b.queue v,
      Function.update woken (.inr j) (.asleep slot),
      Function.update spins (.inr j) (spins (.inr j) + 1)⟩ := by
    have hspins : spins (.inr j) = b.spins (.inr j) := Function.update_of_ne Sum.inr_ne_inl ..
    have hturned : (written b.queue v).turn slot = b.queue.writeTurn b.queue.pushTicket + 1 :=
      Function.update_self ..
    have hrunning : woken (.inr j) = .running := by
      simp only [woken]
      rw [Function.update_of_ne Sum.inr_ne_inl,Function.update_self]
    apply gives_up hrunning
    · exact hawaits
    · exact fun heq => hne (hturned.symm.trans heq)
    · exact hspun.trans_eq (congrArg BitVec.toNat hspins.symm)
  have hpause : Function.update woken (.inr j) (.asleep slot) = b.pause := by
    simp only [woken,asked]
    rw [Function.update_comm (by simp),Function.update_idem,Function.update_comm (by simp),
      Function.update_idem,← hj,← hx,Function.update_eq_self,Function.update_eq_self]
  rw [hpause] at hgives
  exact ⟨_,(writes hx hi hturn v).trans (hwakes.trans hgives)⟩

end Write

section Gather

/-- One more index is below the bound. -/
theorem update_below {α : Type} {j : Nat} (hj : j < m) (f g : Fin m → α) :
    Function.update (fun i : Fin m => if i.val < j then f i else g i) ⟨j,hj⟩ (f ⟨j,hj⟩) =
      fun i : Fin m => if i.val < j + 1 then f i else g i := by
  funext i
  by_cases hi : i = ⟨j,hj⟩
  · simp [hi]
  · have hne : i.val ≠ j := fun h => hi (Fin.ext h)
    have hlt : i.val < j + 1 ↔ i.val < j := by omega
    simp only [Function.update_of_ne hi,hlt]

variable (q₀ : MpmcQueue T n m)

/-- The first `j` readers have drawn their tickets and sleep. -/
def gathered (j : Nat) : BlockingQueue T n m where
  queue := { q₀ with
    popTicket := j
    readers := fun i => if i.val < j then .waiting i.val else .idle }
  pause := Sum.elim (fun _ => .running) fun i =>
    if i.val < j then .asleep (q₀.idx i.val) else .running
  spins := Sum.elim (fun _ => 0) fun i => if i.val < j then 1001 else 0

variable {q₀} {k : Nat} (hk : k ≤ 31) (hcap : q₀.capacity.toNat = 2 ^ k)
include hk hcap

theorem readTurn_ne_zero (t : Nat) : 0#32 ≠ q₀.readTurn t := by
  intro heq
  have hnat := congrArg BitVec.toNat heq
  rw [MpmcQueue.readTurn_toNat hk hcap] at hnat
  simp only [BitVec.toNat_ofNat] at hnat
  omega

/-- The next reader draws its ticket and falls asleep. -/
theorem gathered_succ (hturn : ∀ s, q₀.turn s = 0) {j : Nat} (hj : j < m) :
    Leads WakesOne step (gathered q₀ j) (gathered q₀ (j + 1)) := by
  have hself : (gathered q₀ j).pause (.inr ⟨j,hj⟩) = .running := by simp [gathered]
  have hidle : (gathered q₀ j).queue.readers ⟨j,hj⟩ = .idle := by simp [gathered]
  have hspins : (gathered q₀ j).spins (.inr ⟨j,hj⟩) = 0 := by simp [gathered]
  have hdraw : (gathered q₀ j).step (.run (.read ⟨j,hj⟩) none) =
      .ok ({ gathered q₀ j with queue := { (gathered q₀ j).queue with
        popTicket := j + 1
        readers := Function.update (gathered q₀ j).queue.readers ⟨j,hj⟩ (.waiting j) } },
        .drewPop j) := by
    have hread : (gathered q₀ j).queue.step (.read ⟨j,hj⟩) =
        .ok ({ (gathered q₀ j).queue with
          popTicket := j + 1
          readers := Function.update (gathered q₀ j).queue.readers ⟨j,hj⟩ (.waiting j) },
          .drewPop j) := by
      simp only [MpmcQueue.step,MpmcQueue.read,hidle]
      rfl
    have hafter : after (gathered q₀ j).queue (.inr ⟨j,hj⟩) ((gathered q₀ j).spins (.inr ⟨j,hj⟩)) =
        (.running,0) := by
      simp only [after,MpmcQueue.awaits,MpmcQueue.publishes,hidle]
    simp only [step,run,MpmcAction.thread,hself,hread,bind,Except.bind,hafter]
    rw [← hself,Function.update_eq_self,← hspins,Function.update_eq_self]
    rfl
  refine Leads.cons (wakesOne_of_running (a := .read ⟨j,hj⟩) hself none) hdraw ?_
  have hstate : gathered q₀ (j + 1) = ⟨{ (gathered q₀ j).queue with
      popTicket := j + 1
      readers := Function.update (gathered q₀ j).queue.readers ⟨j,hj⟩ (.waiting j) },
      Function.update (gathered q₀ j).pause (.inr ⟨j,hj⟩) (.asleep (q₀.idx j)),
      Function.update (gathered q₀ j).spins (.inr ⟨j,hj⟩) 1001⟩ := by
    have hreaders := update_below hj (fun i : Fin m => (.waiting i.val : Reader T)) fun _ => .idle
    have hpause := update_below hj (fun i : Fin m => (.asleep (q₀.idx i.val) : Pause (BitVec 32)))
      fun _ => .running
    have hcounts := update_below hj (fun _ : Fin m => (1001 : BitVec 32)) fun _ => 0
    dsimp only at hreaders hpause hcounts
    simp only [gathered,Sum.update_elim_inr,hreaders,hpause,hcounts]
  rw [hstate]
  have hwrong : q₀.turn (q₀.idx j) ≠ q₀.readTurn j := by
    rw [hturn]
    exact readTurn_ne_zero hk hcap j
  exact sleeps hself (MpmcQueue.awaits_inr.mpr ⟨j,Function.update_self ..,rfl,rfl⟩) hwrong hspins

theorem gathered_lead (hturn : ∀ s, q₀.turn s = 0) (j : Nat) (hj : j ≤ m) :
    Leads WakesOne step (gathered q₀ 0) (gathered q₀ j) := by
  induction j with
  | zero => exact Leads.refl _
  | succ j ih => exact (ih (by omega)).trans (gathered_succ hk hcap hturn (by omega))

end Gather

/-- All threads rest although the queue holds `v` and a reader sleeps whose turn has come. -/
structure Stranded (b : BlockingQueue T n m) (v : T) : Prop where
  rests : b.AtRest
  holds : b.queue.contents 0 = some v
  due : ∃ j, b.pause (.inr j) = .asleep 0 ∧ b.queue.awaits (.inr j) = some (0,b.queue.turn 0)

/-- With more readers than slots, the plain contract of the kernel allows a run that strands an
element. -/
theorem wakeup_lost (k : Nat) (hpos : 1 ≤ k) (hk : k ≤ 31) (v : T) :
    ∃ b₀ b : BlockingQueue T 1 (2 ^ k + 1), new (BitVec.ofNat 64 (2 ^ k)) = .ok b₀ ∧
      Leads WakesOne step b₀ b ∧ b.Stranded v := by
  have hcheck := ofNat_pow_checked (w := 64) hpos (by omega)
  have hpow := toNat_ofNat_pow (w := 64) (show k < 64 by omega)
  let q₀ : MpmcQueue T 1 (2 ^ k + 1) :=
    ⟨BitVec.ofNat 64 (2 ^ k),hcheck,fun _ => 0,fun _ => none,0,0,fun _ => .idle,fun _ => .idle⟩
  have hcap : q₀.capacity.toNat = 2 ^ k := hpow
  have hzero : q₀.idx 0 = 0 := by rw [MpmcQueue.idx_eq hcap hk,Nat.zero_mod]
  have hlast : q₀.idx (2 ^ k) = 0 := by rw [MpmcQueue.idx_eq hcap hk,hcap,Nat.mod_self]
  have hwriteTurn : q₀.writeTurn 0 = 0 := by
    apply BitVec.eq_of_toNat_eq
    rw [MpmcQueue.writeTurn_toNat hk hcap]
    simp
  have hreadTurn : q₀.readTurn 0 = 1 := by
    apply BitVec.eq_of_toNat_eq
    rw [MpmcQueue.readTurn_toNat hk hcap]
    simp
  have hlastTurn : (1 : BitVec 32) ≠ q₀.readTurn (2 ^ k) := by
    intro heq
    have hnat := congrArg BitVec.toNat heq
    rw [MpmcQueue.readTurn_toNat hk hcap,hcap,Nat.div_self (Nat.two_pow_pos k)] at hnat
    cases hnat
  have hgathered : Leads WakesOne step (gathered q₀ 0) (gathered q₀ (2 ^ k + 1)) :=
    gathered_lead hk hcap (fun _ => rfl) (2 ^ k + 1) le_rfl
  let first : Fin (2 ^ k + 1) := ⟨0,Nat.succ_pos _⟩
  let last : Fin (2 ^ k + 1) := ⟨2 ^ k,Nat.lt_succ_self _⟩
  have hreader : ∀ i : Fin (2 ^ k + 1),
      (gathered q₀ (2 ^ k + 1)).queue.readers i = .waiting i.val := fun i => if_pos i.isLt
  have hasleep : ∀ i : Fin (2 ^ k + 1),
      (gathered q₀ (2 ^ k + 1)).pause (.inr i) = .asleep (q₀.idx i.val) := fun i => if_pos i.isLt
  have hspun : (gathered q₀ (2 ^ k + 1)).spins (.inr last) = 1001 := if_pos last.isLt
  have hpast : q₀.writeTurn 0 + 1 ≠ q₀.readTurn (2 ^ k) := by
    rw [hwriteTurn]
    exact hlastTurn
  obtain ⟨spins,hwrites⟩ := writes_past (b := gathered q₀ (2 ^ k + 1)) (i := 0) (j := last) rfl rfl
    hwriteTurn.symm ((hasleep last).trans (congrArg Pause.asleep (hlast.trans hzero.symm)))
    (by rw [hspun]; decide)
    (MpmcQueue.awaits_inr.mpr ⟨2 ^ k,hreader last,hlast.trans hzero.symm,rfl⟩) hpast v
  refine ⟨gathered q₀ 0,_,?_,hgathered.trans hwrites,?_,?_,?_⟩
  · have hnew : (MpmcQueue.new (BitVec.ofNat 64 (2 ^ k)) :
        Except String (MpmcQueue T 1 (2 ^ k + 1))) = .ok q₀ := dif_pos hcheck
    have hpause : (gathered q₀ 0).pause = fun _ => .running := by
      funext x
      cases x <;> rfl
    have hspins : (gathered q₀ 0).spins = fun _ => 0 := by
      funext x
      cases x <;> rfl
    simp only [new,hnew,bind,Except.bind]
    exact congrArg Except.ok (congrArg₂ (BlockingQueue.mk _) hpause.symm hspins.symm)
  · rintro (i | i)
    · exact .inl ⟨rfl,rfl⟩
    · exact .inr ⟨_,hasleep i⟩
  · change Function.update _ (q₀.idx 0) _ 0 = _
    rw [hzero,Function.update_self]
  · refine ⟨first,(hasleep first).trans (congrArg Pause.asleep hzero),
      MpmcQueue.awaits_inr.mpr ⟨0,hreader first,hzero,?_⟩⟩
    change q₀.readTurn 0 = Function.update q₀.turn (q₀.idx 0) (q₀.writeTurn 0 + 1) 0
    rw [hzero,Function.update_self,hwriteTurn,hreadTurn]
    rfl

theorem wakeup_lost_two :
    ∃ b₀ b : BlockingQueue Nat 1 (2 ^ 1 + 1), new (BitVec.ofNat 64 (2 ^ 1)) = .ok b₀ ∧
      Leads WakesOne step b₀ b ∧ b.Stranded 7 :=
  wakeup_lost 1 (by decide) (by decide) 7

end Aethon.Concurrent.BlockingQueue
