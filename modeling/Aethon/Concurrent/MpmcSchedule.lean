import Aethon.Concurrent.Mpmc
import Aethon.Framework.Tickets

/-!
# The turns of the multi-producer multi-consumer queue

The turn of a slot, counted without wrap-around, is twice the number of visits that a write and a
read have completed, plus one while an element is stored. The 32-bit turn is its remainder. A
thread waits for a turn that is fewer visits away than there are threads, so the remainder tells
its own turn from every other.
-/

namespace Aethon.Concurrent

open Framework

variable {T : Type}

/-- The call that a writer is in: its ticket and its value. -/
def Writer.job : Writer T → Option (Nat × T)
  | .idle => none
  | .waiting value ticket => some (ticket,value)
  | .admitted value ticket => some (ticket,value)
  | .filled value ticket => some (ticket,value)

def Writer.ticket (w : Writer T) : Option Nat := w.job.map Prod.fst

/-- The ticket of a writer between its turn and the next. -/
def Writer.inside : Writer T → Option Nat
  | .admitted _ ticket => some ticket
  | .filled _ ticket => some ticket
  | _ => none

def Reader.ticket : Reader T → Option Nat
  | .idle => none
  | .waiting ticket => some ticket
  | .admitted ticket => some ticket
  | .moved _ ticket => some ticket

/-- The ticket of a reader between its turn and the next. -/
def Reader.inside : Reader T → Option Nat
  | .admitted ticket => some ticket
  | .moved _ ticket => some ticket
  | _ => none

theorem Writer.ticket_of_inside {w : Writer T} {t : Nat} (h : w.inside = some t) :
    w.ticket = some t := by
  cases w with
  | idle => cases h
  | waiting v u => cases h
  | admitted v u => exact h
  | filled v u => exact h

theorem Reader.ticket_of_inside {r : Reader T} {t : Nat} (h : r.inside = some t) :
    r.ticket = some t := by
  cases r with
  | idle => cases h
  | waiting u => cases h
  | admitted u => exact h
  | moved v u => exact h

namespace MpmcQueue

variable {n m : Nat}

/-- Who is at which turn, with the turns counted without wrap-around. -/
structure Scheduled (q : MpmcQueue T n m) (turns : Nat → Nat) : Prop where
  pushes : Ticketed q.capacity.toNat q.pushTicket (fun s => (turns s + 1) / 2)
    (Writer.ticket ∘ q.writers)
  pops : Ticketed q.capacity.toNat q.popTicket (fun s => turns s / 2) (Reader.ticket ∘ q.readers)
  turn : ∀ s, (q.turn s).toNat = turns s % 2 ^ 32
  writing : ∀ i t, (q.writers i).inside = some t →
    turns (t % q.capacity.toNat) = 2 * (t / q.capacity.toNat)
  reading : ∀ j t, (q.readers j).inside = some t →
    turns (t % q.capacity.toNat) = 2 * (t / q.capacity.toNat) + 1

variable {q : MpmcQueue T n m} {turns : Nat → Nat}

theorem Scheduled.writer_unique (h : q.Scheduled turns) {i i' : Fin n} {t t' : Nat}
    (hi : (q.writers i).inside = some t) (hi' : (q.writers i').inside = some t')
    (hslot : t % q.capacity.toNat = t' % q.capacity.toNat) : i = i' := by
  have ht := h.writing i t hi
  have ht' := h.writing i' t' hi'
  rw [hslot] at ht
  obtain rfl := eq_of_slot_visit hslot (by omega)
  exact h.pushes.unique i i' t (Writer.ticket_of_inside hi) (Writer.ticket_of_inside hi')

theorem Scheduled.reader_unique (h : q.Scheduled turns) {j j' : Fin m} {t t' : Nat}
    (hj : (q.readers j).inside = some t) (hj' : (q.readers j').inside = some t')
    (hslot : t % q.capacity.toNat = t' % q.capacity.toNat) : j = j' := by
  have ht := h.reading j t hj
  have ht' := h.reading j' t' hj'
  rw [hslot] at ht
  obtain rfl := eq_of_slot_visit hslot (by omega)
  exact h.pops.unique j j' t (Reader.ticket_of_inside hj) (Reader.ticket_of_inside hj')

/-- A writer and a reader are never inside one slot: their turns differ in parity. -/
theorem Scheduled.writer_reader (h : q.Scheduled turns) {i : Fin n} {j : Fin m} {t t' : Nat}
    (hi : (q.writers i).inside = some t) (hj : (q.readers j).inside = some t') :
    t % q.capacity.toNat ≠ t' % q.capacity.toNat := by
  intro hslot
  have ht := h.writing i t hi
  have ht' := h.reading j t' hj
  rw [hslot] at ht
  omega

section Window

variable {k : Nat} (hk : k ≤ 31) (hcap : q.capacity.toNat = 2 ^ k)
include hk hcap

/-- A writer that observes the turn it expects is at its turn. -/
theorem Scheduled.write_turn (h : q.Scheduled turns) (hn : n < 2 ^ 31) {i : Fin n} {t : Nat}
    (hi : (q.writers i).ticket = some t) (hturn : q.turn (q.idx t) = q.writeTurn t) :
    turns (t % q.capacity.toNat) = 2 * (t / q.capacity.toNat) := by
  have hpos : 0 < q.capacity.toNat := by
    rw [hcap]
    exact Nat.two_pow_pos k
  have hwindow := h.pushes.window hpos hi
  have hpending := h.pushes.pending i t hi
  have hword := congrArg BitVec.toNat hturn
  rw [Fintype.card_fin] at hwindow
  rw [h.turn,idx_eq hcap hk,writeTurn_toNat hk hcap] at hword
  omega

/-- A reader that observes the turn it expects is at its turn. -/
theorem Scheduled.read_turn (h : q.Scheduled turns) (hm : m < 2 ^ 31) {j : Fin m} {t : Nat}
    (hj : (q.readers j).ticket = some t) (hturn : q.turn (q.idx t) = q.readTurn t) :
    turns (t % q.capacity.toNat) = 2 * (t / q.capacity.toNat) + 1 := by
  have hpos : 0 < q.capacity.toNat := by
    rw [hcap]
    exact Nat.two_pow_pos k
  have hwindow := h.pops.window hpos hj
  have hpending := h.pops.pending j t hj
  have hword := congrArg BitVec.toNat hturn
  rw [Fintype.card_fin] at hwindow
  rw [h.turn,idx_eq hcap hk,readTurn_toNat hk hcap] at hword
  omega

end Window

theorem Scheduled.drawPush (h : q.Scheduled turns) {i : Fin n} (hi : q.writers i = .idle)
    (v : T) :
    Scheduled { q with
      pushTicket := q.pushTicket + 1
      writers := Function.update q.writers i (.waiting v q.pushTicket) } turns := by
  constructor
  · rw [Function.comp_update]
    exact h.pushes.draw (by rw [Function.comp_apply,hi]; rfl)
  · exact h.pops
  · exact h.turn
  · refine forall_update_some (f := Writer.inside) ?_ fun j _ => h.writing j
    intro t ht
    cases ht
  · exact h.reading

theorem Scheduled.drawPop (h : q.Scheduled turns) {j : Fin m} (hj : q.readers j = .idle) :
    Scheduled { q with
      popTicket := q.popTicket + 1
      readers := Function.update q.readers j (.waiting q.popTicket) } turns := by
  constructor
  · exact h.pushes
  · rw [Function.comp_update]
    exact h.pops.draw (by rw [Function.comp_apply,hj]; rfl)
  · exact h.turn
  · exact h.writing
  · refine forall_update_some (f := Reader.inside) ?_ fun i _ => h.reading i
    intro t ht
    cases ht

/-- A writer moves on with its ticket. -/
theorem Scheduled.withWriter (h : q.Scheduled turns) {i : Fin n} {w : Writer T}
    (contents : Nat → Option T) (hticket : w.ticket = (q.writers i).ticket)
    (hinside : ∀ t, w.inside = some t →
      turns (t % q.capacity.toNat) = 2 * (t / q.capacity.toNat)) :
    Scheduled { q with
      contents := contents
      writers := Function.update q.writers i w } turns := by
  constructor
  · rw [Function.comp_update,hticket,← Function.comp_apply (f := Writer.ticket),
      Function.update_eq_self]
    exact h.pushes
  · exact h.pops
  · exact h.turn
  · exact forall_update_some (f := Writer.inside) hinside fun j _ => h.writing j
  · exact h.reading

/-- A reader moves on with its ticket. -/
theorem Scheduled.withReader (h : q.Scheduled turns) {j : Fin m} {r : Reader T}
    (contents : Nat → Option T) (hticket : r.ticket = (q.readers j).ticket)
    (hinside : ∀ t, r.inside = some t →
      turns (t % q.capacity.toNat) = 2 * (t / q.capacity.toNat) + 1) :
    Scheduled { q with
      contents := contents
      readers := Function.update q.readers j r } turns := by
  constructor
  · exact h.pushes
  · rw [Function.comp_update,hticket,← Function.comp_apply (f := Reader.ticket),
      Function.update_eq_self]
    exact h.pops
  · exact h.turn
  · exact h.writing
  · exact forall_update_some (f := Reader.inside) hinside fun i _ => h.reading i

/-- The turns after the one of ticket `t` is over. -/
def advance (q : MpmcQueue T n m) (turns : Nat → Nat) (t : Nat) : Nat → Nat :=
  Function.update turns (t % q.capacity.toNat) (turns (t % q.capacity.toNat) + 1)

theorem advance_half_up {t : Nat}
    (ht : turns (t % q.capacity.toNat) = 2 * (t / q.capacity.toNat)) :
    (fun s => (q.advance turns t s + 1) / 2) = Function.update (fun s => (turns s + 1) / 2)
      (t % q.capacity.toNat) (t / q.capacity.toNat + 1) ∧
    (fun s => q.advance turns t s / 2) = fun s => turns s / 2 := by
  constructor
  · funext s
    by_cases hs : s = t % q.capacity.toNat
    · rw [hs,advance,Function.update_self,Function.update_self,ht]
      omega
    · rw [advance,Function.update_of_ne hs,Function.update_of_ne hs]
  · funext s
    by_cases hs : s = t % q.capacity.toNat
    · rw [hs,advance,Function.update_self,ht]
      omega
    · rw [advance,Function.update_of_ne hs]

theorem advance_half_down {t : Nat}
    (ht : turns (t % q.capacity.toNat) = 2 * (t / q.capacity.toNat) + 1) :
    (fun s => (q.advance turns t s + 1) / 2) = (fun s => (turns s + 1) / 2) ∧
    (fun s => q.advance turns t s / 2) = Function.update (fun s => turns s / 2)
      (t % q.capacity.toNat) (t / q.capacity.toNat + 1) := by
  constructor
  · funext s
    by_cases hs : s = t % q.capacity.toNat
    · rw [hs,advance,Function.update_self,ht]
      omega
    · rw [advance,Function.update_of_ne hs]
  · funext s
    by_cases hs : s = t % q.capacity.toNat
    · rw [hs,advance,Function.update_self,Function.update_self,ht]
      omega
    · rw [advance,Function.update_of_ne hs,Function.update_of_ne hs]

/-- The stored turn follows the count. -/
theorem Scheduled.turn_advance (h : q.Scheduled turns) {t : Nat} {word : BitVec 32}
    (hword : word.toNat = (turns (t % q.capacity.toNat) + 1) % 2 ^ 32) (s : Nat) :
    (Function.update q.turn (t % q.capacity.toNat) word s).toNat =
      q.advance turns t s % 2 ^ 32 := by
  by_cases hs : s = t % q.capacity.toNat
  · rw [hs,Function.update_self,advance,Function.update_self,hword]
  · rw [Function.update_of_ne hs,advance,Function.update_of_ne hs]
    exact h.turn s

theorem Scheduled.publishWriter (h : q.Scheduled turns) {i : Fin n} {t : Nat}
    (hi : (q.writers i).inside = some t) {word : BitVec 32}
    (hword : word.toNat = (turns (t % q.capacity.toNat) + 1) % 2 ^ 32) :
    Scheduled { q with
      turn := Function.update q.turn (t % q.capacity.toNat) word
      writers := Function.update q.writers i .idle } (q.advance turns t) := by
  have ht := h.writing i t hi
  have hfinish := h.pushes.finish (Writer.ticket_of_inside hi) (show _ / 2 = _ by omega)
  obtain ⟨hup,hdown⟩ := advance_half_up ht
  constructor
  · rw [Function.comp_update]
    exact hup ▸ hfinish
  · exact hdown ▸ h.pops
  · exact h.turn_advance hword
  · refine forall_update_some (f := Writer.inside) ?_ ?_
    · intro u hu
      cases hu
    · intro i' hne u hu
      have hslot : u % q.capacity.toNat ≠ t % q.capacity.toNat :=
        fun hslot => hne (h.writer_unique hu hi hslot)
      rw [advance,Function.update_of_ne hslot]
      exact h.writing i' u hu
  · intro j u hu
    rw [advance,Function.update_of_ne (h.writer_reader hi hu).symm]
    exact h.reading j u hu

theorem Scheduled.publishReader (h : q.Scheduled turns) {j : Fin m} {t : Nat}
    (hj : (q.readers j).inside = some t) {word : BitVec 32}
    (hword : word.toNat = (turns (t % q.capacity.toNat) + 1) % 2 ^ 32) :
    Scheduled { q with
      turn := Function.update q.turn (t % q.capacity.toNat) word
      readers := Function.update q.readers j .idle } (q.advance turns t) := by
  have ht := h.reading j t hj
  have hfinish := h.pops.finish (Reader.ticket_of_inside hj) (show _ / 2 = _ by omega)
  obtain ⟨hup,hdown⟩ := advance_half_down ht
  constructor
  · exact hup ▸ h.pushes
  · rw [Function.comp_update]
    exact hdown ▸ hfinish
  · exact h.turn_advance hword
  · intro i u hu
    rw [advance,Function.update_of_ne (h.writer_reader hu hj)]
    exact h.writing i u hu
  · refine forall_update_some (f := Reader.inside) ?_ ?_
    · intro u hu
      cases hu
    · intro j' hne u hu
      have hslot : u % q.capacity.toNat ≠ t % q.capacity.toNat :=
        fun hslot => hne (h.reader_unique hu hj hslot)
      rw [advance,Function.update_of_ne hslot]
      exact h.reading j' u hu

end MpmcQueue

end Aethon.Concurrent
