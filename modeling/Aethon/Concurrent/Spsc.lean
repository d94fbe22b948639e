import Aethon.Container.SingleThreadHashMap
import Aethon.Framework.Run
import Aethon.Framework.SlotWindow

/-!
# The single-producer single-consumer queue

`ProducerConsumerQueue` as the atomic steps of its two threads. A run is any interleaving of
them: each action lets one thread take its next step. A slot of `records` holds a value from its
construction by the producer to its destruction by the consumer, and `none` otherwise. In every
run the queue is a bounded FIFO channel.
-/

namespace Aethon.Concurrent

open Framework

/-- Where the producer stands in `write`, with its locals. -/
inductive Producer (T : Type) where
  | idle
  | loadedWrite (value : T) (currentWrite : BitVec 32)
  | admitted (value : T) (currentWrite : BitVec 32)
  | constructed (value : T) (currentWrite : BitVec 32)

/-- Where the consumer stands in `read`, with its locals. -/
inductive Consumer (T : Type) where
  | idle
  | loadedRead (currentRead : BitVec 32)
  | admitted (currentRead : BitVec 32)
  | moved (currentRead : BitVec 32) (record : T)

/-- A queue and its two threads. -/
structure ProducerConsumerQueue (T : Type) where
  size : BitVec 32
  size_checked : 2 ≤ size.toNat ∧ size &&& (size - 1) = 0
  records : Nat → Option T
  readIndex : BitVec 32
  writeIndex : BitVec 32
  producer : Producer T
  consumer : Consumer T

/-- One thread takes a step; the producer starts a `write` of `value` if it is idle. -/
inductive QueueAction (T : Type) where
  | produce (value : T)
  | consume

/-- The call that a step completes, with its result. -/
inductive QueueEvent (T : Type) where
  | internal
  | wrote (value : T)
  | writeFailed
  | read (value : T)
  | readFailed

namespace ProducerConsumerQueue

variable {T : Type}

def new (size : BitVec 32) : Checked (ProducerConsumerQueue T) :=
  if h : 2 ≤ size.toNat ∧ size &&& (size - 1) = 0 then
    .ok ⟨size,h,fun _ => none,0,0,.idle,.idle⟩
  else .error (.safeCheck "size must be a power of 2")

def mask (q : ProducerConsumerQueue T) : BitVec 32 := q.size - 1

def nextRecord (q : ProducerConsumerQueue T) (current : BitVec 32) : BitVec 32 :=
  (current + 1) &&& q.mask

/-- The next atomic step of `write`. -/
def produce (q : ProducerConsumerQueue T) (value : T) : ProducerConsumerQueue T × QueueEvent T :=
  match q.producer with
  | .idle => ({ q with producer := .loadedWrite value q.writeIndex },.internal)
  | .loadedWrite value currentWrite =>
      if q.nextRecord currentWrite ≠ q.readIndex then
        ({ q with producer := .admitted value currentWrite },.internal)
      else ({ q with producer := .idle },.writeFailed)
  | .admitted value currentWrite =>
      ({ q with
          records := Function.update q.records currentWrite.toNat (some value)
          producer := .constructed value currentWrite },.internal)
  | .constructed value currentWrite =>
      ({ q with writeIndex := q.nextRecord currentWrite, producer := .idle },.wrote value)

/-- The next atomic step of `read`; to move from a slot without a value is a fault. -/
def consume (q : ProducerConsumerQueue T) : Checked (ProducerConsumerQueue T × QueueEvent T) :=
  match q.consumer with
  | .idle => .ok ({ q with consumer := .loadedRead q.readIndex },.internal)
  | .loadedRead currentRead =>
      if currentRead = q.writeIndex then .ok ({ q with consumer := .idle },.readFailed)
      else .ok ({ q with consumer := .admitted currentRead },.internal)
  | .admitted currentRead =>
      match q.records currentRead.toNat with
      | none => .error .danglingPointer
      | some record =>
          .ok ({ q with
            records := Function.update q.records currentRead.toNat none
            consumer := .moved currentRead record },.internal)
  | .moved currentRead record =>
      .ok ({ q with readIndex := q.nextRecord currentRead, consumer := .idle },.read record)

def step (q : ProducerConsumerQueue T) :
    QueueAction T → Checked (ProducerConsumerQueue T × QueueEvent T)
  | .produce value => .ok (q.produce value)
  | .consume => q.consume

def capacity (q : ProducerConsumerQueue T) : Nat := (q.size - 1).toNat

def isEmpty (q : ProducerConsumerQueue T) : Bool := q.readIndex = q.writeIndex

def isFull (q : ProducerConsumerQueue T) : Bool := q.nextRecord q.writeIndex = q.readIndex

end ProducerConsumerQueue

variable {T : Type}

def QueueEvent.written : QueueEvent T → List T
  | .wrote value => [value]
  | _ => []

def QueueEvent.returned : QueueEvent T → List T
  | .read value => [value]
  | _ => []

/-- The values of the successful writes, in order. -/
def writes (events : List (QueueEvent T)) : List T := events.flatMap QueueEvent.written

/-- The values of the successful reads, in order. -/
def reads (events : List (QueueEvent T)) : List T := events.flatMap QueueEvent.returned

@[simp] theorem writes_concat (events : List (QueueEvent T)) (e : QueueEvent T) :
    writes (events ++ [e]) = writes events ++ e.written := by
  simp [writes]

@[simp] theorem reads_concat (events : List (QueueEvent T)) (e : QueueEvent T) :
    reads (events ++ [e]) = reads events ++ e.returned := by
  simp [reads]

/-- The value that is constructed and not published yet. -/
def Producer.inFlight : Producer T → List T
  | .constructed value _ => [value]
  | _ => []

/-- The value that is moved out while its slot is not given back yet. -/
def Consumer.inHand : Consumer T → List T
  | .moved _ record => [record]
  | _ => []

/-- The producer knows its own index, and past the test that there is room. -/
def Producer.Sound (writeIndex : BitVec 32) (room : Prop) : Producer T → Prop
  | .idle => True
  | .loadedWrite _ currentWrite => currentWrite = writeIndex
  | .admitted _ currentWrite => currentWrite = writeIndex ∧ room
  | .constructed _ currentWrite => currentWrite = writeIndex

/-- The consumer knows its own index, and past the test that there is a record. -/
def Consumer.Sound (readIndex : BitVec 32) (filled : Prop) : Consumer T → Prop
  | .idle => True
  | .loadedRead currentRead => currentRead = readIndex
  | .admitted currentRead => currentRead = readIndex ∧ filled
  | .moved currentRead _ => currentRead = readIndex

theorem Producer.Sound.imp {p : Producer T} {i : BitVec 32} {room room' : Prop}
    (h : p.Sound i room) (himp : room → room') : p.Sound i room' := by
  cases p with
  | admitted v cur => exact ⟨h.1,himp h.2⟩
  | _ => exact h

theorem Consumer.Sound.imp {c : Consumer T} {i : BitVec 32} {filled filled' : Prop}
    (h : c.Sound i filled) (himp : filled → filled') : c.Sound i filled' := by
  cases c with
  | admitted cur => exact ⟨h.1,himp h.2⟩
  | _ => exact h

namespace ProducerConsumerQueue

/-- The state after `events`: the indices count the completed calls, the slots hold what is
constructed and not moved out, and what is moved out was published. -/
structure Reached (q : ProducerConsumerQueue T) (events : List (QueueEvent T)) : Prop where
  writeIndex : q.writeIndex.toNat = (writes events).length % q.size.toNat
  readIndex : q.readIndex.toNat = (reads events).length % q.size.toNat
  order : reads events ++ q.consumer.inHand <+: writes events
  room : (writes events ++ q.producer.inFlight).length < (reads events).length + q.size.toNat
  window : SlotWindow q.size.toNat q.records
    (fun i => (writes events ++ q.producer.inFlight)[i]?)
    (reads events ++ q.consumer.inHand).length (writes events ++ q.producer.inFlight).length
  producer : q.producer.Sound q.writeIndex
    ((writes events).length + 1 < (reads events).length + q.size.toNat)
  consumer : q.consumer.Sound q.readIndex ((reads events).length < (writes events).length)

variable {q : ProducerConsumerQueue T} {events : List (QueueEvent T)}

/-- The slot after that of record `i` is the slot of record `i + 1`. -/
theorem nextRecord_toNat {current : BitVec 32} {i : Nat}
    (h : current.toNat = i % q.size.toNat) :
    (q.nextRecord current).toNat = (i + 1) % q.size.toNat := by
  obtain ⟨htwo,hand⟩ := q.size_checked
  obtain ⟨k,hk⟩ := (and_pred_eq_zero_iff (by omega)).mp hand
  have hone : (1 : BitVec 32).toNat = 1 := rfl
  have hlt : i % q.size.toNat < q.size.toNat := Nat.mod_lt _ (by omega)
  have hadd : (current + 1).toNat = i % q.size.toNat + 1 := by
    rw [BitVec.toNat_add,hone,h]
    have := q.size.isLt
    exact Nat.mod_eq_of_lt (by omega)
  rw [nextRecord,mask,toNat_and_pred _ hk,hadd,Nat.mod_add_mod]

theorem Reached.length_le (h : q.Reached events) :
    (reads events).length ≤ (writes events).length := by
  have := h.order.length_le
  rw [List.length_append] at this
  omega

theorem Reached.length_lt (h : q.Reached events) :
    (writes events).length < (reads events).length + q.size.toNat := by
  have := h.room
  rw [List.length_append] at this
  omega

/-- The test of `write` sees that there is no room exactly if all slots but one are taken. -/
theorem Reached.nextRecord_eq_iff (h : q.Reached events) :
    q.nextRecord q.writeIndex = q.readIndex ↔
      (writes events).length + 1 = (reads events).length + q.size.toNat := by
  have hle := h.length_le
  have hlt := h.length_lt
  rw [← BitVec.toNat_inj,nextRecord_toNat h.writeIndex,h.readIndex]
  constructor
  · intro heq
    by_contra hne
    exact mod_ne_of_near (by omega) (by omega) heq.symm
  · intro heq
    rw [heq,Nat.add_mod_right]

/-- The test of `read` sees an empty queue exactly if every record was read. -/
theorem Reached.readIndex_eq_iff (h : q.Reached events) :
    q.readIndex = q.writeIndex ↔ (reads events).length = (writes events).length := by
  rw [← BitVec.toNat_inj,h.readIndex,h.writeIndex]
  exact mod_eq_iff_of_near h.length_le h.length_lt

theorem new_reached {size : BitVec 32} {q₀ : ProducerConsumerQueue T}
    (h : new size = .ok q₀) : q₀.Reached [] ∧ q₀.size = size := by
  unfold new at h
  split_ifs at h with hcheck
  cases h
  refine ⟨?_,rfl⟩
  constructor
  · simp [writes]
  · simp [reads]
  · exact List.nil_prefix
  · change 0 < 0 + size.toNat
    omega
  · exact SlotWindow.init _ _
  · trivial
  · trivial

/-- A step of the producer that only moves it on. -/
theorem Reached.withProducer (h : q.Reached events) {p : Producer T} {e : QueueEvent T}
    (hwritten : e.written = []) (hreturned : e.returned = [])
    (hflight : p.inFlight = q.producer.inFlight)
    (hsound : p.Sound q.writeIndex
      ((writes events).length + 1 < (reads events).length + q.size.toNat)) :
    Reached { q with producer := p } (events ++ [e]) := by
  constructor <;>
    simp only [writes_concat,reads_concat,hwritten,hreturned,hflight,List.append_nil]
  · exact h.writeIndex
  · exact h.readIndex
  · exact h.order
  · exact h.room
  · exact h.window
  · exact hsound
  · exact h.consumer

/-- A step of the consumer that only moves it on. -/
theorem Reached.withConsumer (h : q.Reached events) {c : Consumer T} {e : QueueEvent T}
    (hwritten : e.written = []) (hreturned : e.returned = [])
    (hhand : c.inHand = q.consumer.inHand)
    (hsound : c.Sound q.readIndex ((reads events).length < (writes events).length)) :
    Reached { q with consumer := c } (events ++ [e]) := by
  constructor <;>
    simp only [writes_concat,reads_concat,hwritten,hreturned,hhand,List.append_nil]
  · exact h.writeIndex
  · exact h.readIndex
  · exact h.order
  · exact h.room
  · exact h.window
  · exact h.producer
  · exact hsound

/-- The producer constructs its record in the slot past the published ones. -/
theorem Reached.construct (h : q.Reached events) {v : T} {cur : BitVec 32}
    (hp : q.producer = .admitted v cur) :
    Reached { q with
      records := Function.update q.records cur.toNat (some v)
      producer := .constructed v cur } (events ++ [.internal]) := by
  have hsound := h.producer
  have hwindow := h.window
  rw [hp] at hsound hwindow
  obtain ⟨rfl,hroom⟩ := hsound
  simp only [Producer.inFlight,List.append_nil] at hwindow
  have hlen : (writes events ++ [v]).length = (writes events).length + 1 := List.length_append
  have hlast : (writes events ++ [v])[(writes events).length]? = some v := by simp
  have hold : ∀ i, (reads events ++ q.consumer.inHand).length ≤ i → i < (writes events).length →
      (writes events ++ [v])[i]? = (writes events)[i]? :=
    fun _ _ hi => List.getElem?_append_left hi
  have hfill := (hwindow.congr hold).fill h.order.length_le (by rw [List.length_append]; omega)
  rw [hlast,← h.writeIndex] at hfill
  constructor <;>
    simp only [writes_concat,reads_concat,QueueEvent.written,QueueEvent.returned,
      Producer.inFlight,List.append_nil]
  · exact h.writeIndex
  · exact h.readIndex
  · exact h.order
  · rw [hlen]
    exact hroom
  · rw [hlen]
    exact hfill
  · rfl
  · exact h.consumer

/-- The producer publishes its record. -/
theorem Reached.publish (h : q.Reached events) {v : T} {cur : BitVec 32}
    (hp : q.producer = .constructed v cur) :
    Reached { q with writeIndex := q.nextRecord cur, producer := .idle }
      (events ++ [.wrote v]) := by
  have hsound := h.producer
  have hroom := h.room
  have hwindow := h.window
  rw [hp] at hsound hroom hwindow
  cases hsound
  constructor <;>
    simp only [writes_concat,reads_concat,QueueEvent.written,QueueEvent.returned,
      Producer.inFlight,List.append_nil]
  · rw [List.length_append]
    exact nextRecord_toNat h.writeIndex
  · exact h.readIndex
  · exact h.order.trans (List.prefix_append _ _)
  · exact hroom
  · exact hwindow
  · trivial
  · refine h.consumer.imp fun hlt => ?_
    rw [List.length_append]
    omega

/-- What a step from a reached state leads to, and what a failed call has seen. -/
structure Advances (q : ProducerConsumerQueue T) (events : List (QueueEvent T))
    (q' : ProducerConsumerQueue T) (e : QueueEvent T) : Prop where
  reached : q'.Reached (events ++ [e])
  size : q'.size = q.size
  full : e = .writeFailed → q.nextRecord q.writeIndex = q.readIndex
  empty : e = .readFailed → q.readIndex = q.writeIndex

theorem produce_advances (h : q.Reached events) (value : T) :
    q.Advances events (q.produce value).1 (q.produce value).2 := by
  unfold produce
  cases hp : q.producer with
  | idle => exact ⟨h.withProducer rfl rfl (by rw [hp]; rfl) rfl,rfl,by simp,by simp⟩
  | loadedWrite v cur =>
    have hsound := h.producer
    rw [hp] at hsound
    cases hsound
    dsimp only
    split_ifs with hnext
    · refine ⟨h.withProducer rfl rfl (by rw [hp]; rfl) ⟨rfl,?_⟩,rfl,by simp,by simp⟩
      have hlt := h.length_lt
      have hne := mt h.nextRecord_eq_iff.mpr hnext
      omega
    · exact ⟨h.withProducer rfl rfl (by rw [hp]; rfl) trivial,rfl,fun _ => not_not.mp hnext,
        by simp⟩
  | admitted v cur => exact ⟨h.construct hp,rfl,by simp,by simp⟩
  | constructed v cur => exact ⟨h.publish hp,rfl,by simp,by simp⟩

/-- The slot that the consumer moves from holds the next record to return. -/
theorem Reached.front (h : q.Reached events) (hc : q.consumer.inHand = [])
    (hlt : (reads events).length < (writes events).length) :
    ∃ v, q.records q.readIndex.toNat = some v ∧ reads events ++ [v] <+: writes events := by
  have hfull := h.window.full (reads events).length
  have horder := h.order
  rw [hc,List.append_nil] at hfull horder
  obtain ⟨rest,hrest⟩ := horder
  cases rest with
  | nil =>
    rw [← hrest,List.append_nil] at hlt
    omega
  | cons v rest =>
    refine ⟨v,?_,⟨rest,?_⟩⟩
    · rw [h.readIndex,hfull le_rfl (by rw [List.length_append]; omega),
        List.getElem?_append_left hlt,← hrest]
      simp
    · rw [← hrest,List.append_assoc]
      rfl

/-- The consumer moves the next record out of its slot. -/
theorem Reached.move (h : q.Reached events) {cur : BitVec 32}
    (hc : q.consumer = .admitted cur) :
    ∃ v, q.records cur.toNat = some v ∧
      Reached { q with
        records := Function.update q.records cur.toNat none
        consumer := .moved cur v } (events ++ [.internal]) := by
  have hsound := h.consumer
  have hwindow := h.window
  rw [hc] at hsound hwindow
  obtain ⟨rfl,hlt⟩ := hsound
  simp only [Consumer.inHand,List.append_nil] at hwindow
  obtain ⟨v,hslot,horder⟩ := h.front (by rw [hc]; rfl) hlt
  have hroom := h.room
  have hclear := hwindow.clear (by rw [List.length_append]; omega) hroom.le
  rw [← h.readIndex] at hclear
  have hlen : (reads events ++ [v]).length = (reads events).length + 1 := List.length_append
  refine ⟨v,hslot,?_⟩
  constructor <;>
    simp only [writes_concat,reads_concat,QueueEvent.written,QueueEvent.returned,
      Consumer.inHand,List.append_nil]
  · exact h.writeIndex
  · exact h.readIndex
  · exact horder
  · exact hroom
  · rw [hlen]
    exact hclear
  · exact h.producer
  · rfl

/-- The consumer gives the slot back. -/
theorem Reached.release (h : q.Reached events) {v : T} {cur : BitVec 32}
    (hc : q.consumer = .moved cur v) :
    Reached { q with readIndex := q.nextRecord cur, consumer := .idle }
      (events ++ [.read v]) := by
  have hsound := h.consumer
  have horder := h.order
  have hwindow := h.window
  have hroom := h.room
  rw [hc] at hsound horder hwindow
  cases hsound
  have hlen : (reads events ++ [v]).length = (reads events).length + 1 := List.length_append
  constructor <;>
    simp only [writes_concat,reads_concat,QueueEvent.written,QueueEvent.returned,
      Consumer.inHand,List.append_nil]
  · exact h.writeIndex
  · rw [List.length_append]
    exact nextRecord_toNat h.readIndex
  · exact horder
  · rw [hlen]
    omega
  · exact hwindow
  · refine h.producer.imp fun hlt => ?_
    rw [List.length_append]
    omega
  · trivial

theorem consume_advances (h : q.Reached events) :
    ∃ q' e, q.consume = .ok (q',e) ∧ q.Advances events q' e := by
  unfold consume
  cases hc : q.consumer with
  | idle => exact ⟨_,_,rfl,h.withConsumer rfl rfl (by rw [hc]; rfl) rfl,rfl,by simp,by simp⟩
  | loadedRead cur =>
    have hsound := h.consumer
    rw [hc] at hsound
    cases hsound
    by_cases hempty : q.readIndex = q.writeIndex
    · exact ⟨_,_,if_pos hempty,h.withConsumer rfl rfl (by rw [hc]; rfl) trivial,rfl,by simp,
        fun _ => hempty⟩
    · refine ⟨_,_,if_neg hempty,h.withConsumer rfl rfl (by rw [hc]; rfl) ⟨rfl,?_⟩,rfl,by simp,
        by simp⟩
      have hle := h.length_le
      have hne := mt h.readIndex_eq_iff.mpr hempty
      omega
  | admitted cur =>
    obtain ⟨v,hslot,hmoved⟩ := h.move hc
    simp only [hslot]
    exact ⟨_,_,rfl,hmoved,rfl,by simp,by simp⟩
  | moved cur v => exact ⟨_,_,rfl,h.release hc,rfl,by simp,by simp⟩

theorem step_advances (h : q.Reached events) (a : QueueAction T) :
    ∃ q' e, q.step a = .ok (q',e) ∧ q.Advances events q' e := by
  cases a with
  | produce value => exact ⟨_,_,rfl,produce_advances h value⟩
  | consume => exact consume_advances h

theorem Reached.advances (h : q.Reached events) {a : QueueAction T}
    {q' : ProducerConsumerQueue T} {e : QueueEvent T} (hstep : q.step a = .ok (q',e)) :
    q.Advances events q' e := by
  obtain ⟨t,e',ht,hadv⟩ := step_advances h a
  rw [hstep] at ht
  cases ht
  exact hadv

/-- Every interleaving runs through, and the invariant holds after it. -/
theorem run_reached (h : q.Reached []) (actions : List (QueueAction T)) :
    ∃ q' events, runOut step q actions = .ok (q',events) ∧ q'.Reached events ∧
      q'.size = q.size := by
  refine runOut_reaches (I := fun t es => t.Reached es ∧ t.size = q.size) ?_ actions q [] ⟨h,rfl⟩
  intro s a es hs
  obtain ⟨t,e,hstep,hadv⟩ := step_advances hs.1 a
  exact ⟨t,e,hstep,hadv.reached,hadv.size.trans hs.2⟩

/-- A bounded FIFO channel after `events`. -/
structure BoundedFifo (q : ProducerConsumerQueue T) (events : List (QueueEvent T)) : Prop where
  fifo : reads events <+: writes events
  bounded : (writes events ++ q.producer.inFlight).length ≤ (reads events).length + q.capacity
  unread : ∀ i, (reads events ++ q.consumer.inHand).length ≤ i → i < (writes events).length →
    q.records (i % q.size.toNat) = (writes events)[i]?
  unused : ∀ v cur, q.producer = .admitted v cur → q.records cur.toNat = none
  full : ∀ a q', q.step a = .ok (q',.writeFailed) →
    (writes events).length = (reads events).length + q.capacity
  empty : ∀ a q', q.step a = .ok (q',.readFailed) → (writes events).length = (reads events).length
  isFull_iff : q.isFull = true ↔ (writes events).length = (reads events).length + q.capacity
  isEmpty_iff : q.isEmpty = true ↔ (writes events).length = (reads events).length

theorem capacity_eq (q : ProducerConsumerQueue T) : q.capacity + 1 = q.size.toNat := by
  obtain ⟨htwo,_⟩ := q.size_checked
  rw [capacity,toNat_pred (by omega)]
  omega

theorem Reached.boundedFifo (h : q.Reached events) : q.BoundedFifo events := by
  have hcap := q.capacity_eq
  constructor
  · exact (List.prefix_append _ _).trans h.order
  · have := h.room
    omega
  · intro i hlo hhi
    rw [h.window.full i hlo (by rw [List.length_append]; omega),List.getElem?_append_left hhi]
  · intro v cur hp
    have hsound := h.producer
    have hempty := h.window.empty (writes events).length
    rw [hp] at hsound hempty
    obtain ⟨rfl,hroom⟩ := hsound
    rw [h.writeIndex]
    refine hempty ?_ ?_
    · simp [Producer.inFlight]
    · rw [List.length_append]
      omega
  · intro a q' hstep
    have := h.nextRecord_eq_iff.mp ((h.advances hstep).full rfl)
    omega
  · intro a q' hstep
    exact (h.readIndex_eq_iff.mp ((h.advances hstep).empty rfl)).symm
  · rw [isFull,decide_eq_true_iff,h.nextRecord_eq_iff]
    omega
  · rw [isEmpty,decide_eq_true_iff,h.readIndex_eq_iff]
    exact eq_comm

/-- For every power of two that the constructor can be given, the queue is a bounded FIFO channel
at every moment of every interleaving of its two threads. -/
theorem spsc_bounded_fifo (k : Nat) (hpos : 1 ≤ k) (hlt : k < 32) :
    ∃ q₀ : ProducerConsumerQueue T, new (BitVec.ofNat 32 (2 ^ k)) = .ok q₀ ∧
      ∀ actions, ∃ q events, runOut step q₀ actions = .ok (q,events) ∧
        q.capacity = 2 ^ k - 1 ∧ q.BoundedFifo events := by
  have hcheck := ofNat_pow_checked hpos hlt
  refine ⟨_,dif_pos hcheck,?_⟩
  intro actions
  obtain ⟨hinit,hq₀⟩ := new_reached (T := T) (dif_pos hcheck)
  obtain ⟨q,events,hrun,hreached,hq⟩ := run_reached hinit actions
  refine ⟨q,events,hrun,?_,hreached.boundedFifo⟩
  have hcap := q.capacity_eq
  rw [hq,hq₀,toNat_ofNat_pow hlt] at hcap
  omega

/-- Two slots, the smallest queue. -/
theorem spsc_bounded_fifo_two :
    ∃ q₀ : ProducerConsumerQueue Nat, new (BitVec.ofNat 32 (2 ^ 1)) = .ok q₀ ∧
      ∀ actions, ∃ q events, runOut step q₀ actions = .ok (q,events) ∧
        q.capacity = 2 ^ 1 - 1 ∧ q.BoundedFifo events :=
  spsc_bounded_fifo 1 (by decide) (by decide)

end ProducerConsumerQueue

end Aethon.Concurrent
