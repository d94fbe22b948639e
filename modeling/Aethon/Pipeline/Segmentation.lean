import Aethon.Pipeline.Backend

/-!
# Segmentation

`send_tcp_segmented_data` cuts a block into chunks and sends each of them in a frame of the
transmit pool. Whatever the ring answers, what was sent is a row of whole chunks from the start
of the block, numbered by the bytes before them, and each took one frame.
-/

namespace Aethon.Pipeline

/-- The segments that carry `chunks`, each numbered by the bytes before it. -/
def segmentsOf (window : Nat) (ackNo sendNxt : BitVec 32) (chunks : List (List UInt8)) :
    List Action :=
  chunks.mapIdx fun i chunk =>
    .data (sendNxt + BitVec.ofNat 32 (chunks.take i).flatten.length) ackNo chunk window

variable {window : Nat} {ackNo n : BitVec 32}

@[simp] theorem segmentsOf_nil : segmentsOf window ackNo n [] = [] := rfl

@[simp] theorem segmentsOf_cons (chunk : List UInt8) (chunks : List (List UInt8)) :
    segmentsOf window ackNo n (chunk :: chunks) =
      .data n ackNo chunk window ::
        segmentsOf window ackNo (n + BitVec.ofNat 32 chunk.length) chunks := by
  simp [segmentsOf,List.mapIdx_cons,BitVec.ofNat_add,BitVec.add_assoc]

/-- The chunks of `data` that were sent with the frames of `txPool`, and what they leave. -/
structure Segmented (window : Nat) (ackNo : BitVec 32) (txPool : List Nat) (n : BitVec 32)
    (data : List UInt8) (chunks : List (List UInt8))
    (result : Bool × List Nat × BitVec 32 × List Action) : Prop where
  sizes : ∀ chunk ∈ chunks, 1 ≤ chunk.length ∧ chunk.length ≤ mss
  start : chunks.flatten <+: data
  frames : chunks.length ≤ txPool.length
  allSent : result.1 = true ↔ chunks.flatten = data
  pool : result.2.1 = txPool.drop chunks.length
  nxt : result.2.2.1 = n + BitVec.ofNat 32 chunks.flatten.length
  log : result.2.2.2 = segmentsOf window ackNo n chunks

namespace Segmented

theorem none {txPool : List Nat} {data : List UInt8} {allSent : Bool}
    (h : allSent = true ↔ data = []) :
    Segmented window ackNo txPool n data [] (allSent,txPool,n,[]) where
  sizes := by simp
  start := List.nil_prefix
  frames := Nat.zero_le _
  allSent := by rw [List.flatten_nil,eq_comm (a := []),h]
  pool := rfl
  nxt := (BitVec.add_zero n).symm
  log := rfl

/-- One more chunk in front. -/
theorem cons {frame : Nat} {txPool : List Nat} {data : List UInt8} {chunks : List (List UInt8)}
    {allSent : Bool} {pool : List Nat} {nxt : BitVec 32} {log : List Action} (hdata : data ≠ [])
    (h : Segmented window ackNo txPool (n + BitVec.ofNat 32 (data.take mss).length)
      (data.drop mss) chunks (allSent,pool,nxt,log)) :
    Segmented window ackNo (frame :: txPool) n data (data.take mss :: chunks)
      (allSent,pool,nxt,.data n ackNo (data.take mss) window :: log) where
  sizes := by
    intro chunk hchunk
    rcases List.mem_cons.mp hchunk with rfl | hchunk
    · have hpos := List.length_pos_iff.mpr hdata
      rw [List.length_take]
      exact ⟨by simp only [mss]; omega,by omega⟩
    · exact h.sizes chunk hchunk
  start := by
    have hstart := (List.prefix_append_right_inj (data.take mss)).mpr h.start
    rwa [List.take_append_drop] at hstart
  frames := Nat.succ_le_succ h.frames
  allSent := by
    have hsplit : data.take mss ++ chunks.flatten = data.take mss ++ data.drop mss ↔
        chunks.flatten = data.drop mss := List.append_right_inj _
    rw [List.take_append_drop] at hsplit
    rw [h.allSent,List.flatten_cons,hsplit]
  pool := h.pool
  nxt := by
    rw [h.nxt,List.flatten_cons,List.length_append,BitVec.ofNat_add,BitVec.add_assoc]
  log := by rw [segmentsOf_cons,← h.log]

end Segmented

/-- The loop sends some chunks, whatever the ring answers. -/
theorem sendSegments_chunks (sent : Nat → Bool) (window : Nat) (ackNo : BitVec 32) (txPool : List Nat)
    (i : Nat) (n : BitVec 32) (data : List UInt8) :
    ∃ chunks, Segmented window ackNo txPool n data chunks
      (Conn.sendSegments sent window ackNo txPool i n data) := by
  fun_induction Conn.sendSegments sent window ackNo txPool i n data with
  | case1 txPool i n => exact ⟨[],Segmented.none (by simp)⟩
  | case2 i n b data => exact ⟨[],Segmented.none (by simp)⟩
  | case3 frame txPool i n b data hsent chunk allSent pool nxt log hrest ih =>
    obtain ⟨chunks,hchunks⟩ := ih
    rw [hrest] at hchunks
    exact ⟨_,hchunks.cons (List.cons_ne_nil b data)⟩
  | case4 frame txPool i n b data hsent => exact ⟨[],Segmented.none (by simp)⟩

/-- What was sent is a row of whole chunks from the start of the block, with one frame of the
pool for each, and the result says whether it is all of it. -/
theorem segmentation_conserves (c : Conn) (sent : Nat → Bool) (data : List UInt8) :
    ∃ chunks : List (List UInt8),
      (c.sendTcpSegmentedData sent data).2 =
        { c with
          session := { c.session with
            sendNxt := c.session.sendNxt + BitVec.ofNat 32 chunks.flatten.length }
          txPool := c.txPool.drop chunks.length
          log := c.log ++
            segmentsOf (recvWindow c.session) c.session.rcvNxt c.session.sendNxt chunks } ∧
      chunks.length ≤ c.txPool.length ∧
      (∀ chunk ∈ chunks, 1 ≤ chunk.length ∧ chunk.length ≤ mss) ∧ chunks.flatten <+: data ∧
      ((c.sendTcpSegmentedData sent data).1 = true ↔ data ≠ [] ∧ chunks.flatten = data) := by
  unfold Conn.sendTcpSegmentedData
  split_ifs with hdata
  · refine ⟨[],?_,Nat.zero_le _,by simp,List.nil_prefix,by simp [hdata]⟩
    simp
  · obtain ⟨chunks,h⟩ := sendSegments_chunks sent (recvWindow c.session) c.session.rcvNxt
      c.txPool 0 c.session.sendNxt data
    refine ⟨chunks,?_,h.frames,h.sizes,h.start,?_⟩
    · dsimp only
      rw [h.pool,h.nxt,h.log]
    · rw [and_iff_right hdata]
      exact h.allSent

end Aethon.Pipeline
