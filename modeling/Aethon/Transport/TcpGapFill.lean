import Aethon.Transport.TcpOverlap

/-!
# Filling a gap

What the ring holds ahead of `rcv_nxt`, as a partial function from positions to bytes, and the
gap filler in these terms: the segment is laid over it, the longest run at `rcv_nxt` is handed
out, and what lies beyond the run stays.
-/

namespace Aethon

open Framework

/-- The bytes of a segment at `off` over what was held; the segment wins where both cover a
position. -/
def overlay (off : Nat) (data : List UInt8) (held : Nat → Option UInt8) (i : Nat) :
    Option UInt8 :=
  if off ≤ i ∧ i < off + data.length then data[i - off]? else held i

/-- The longest contiguous run of `held` from position 0 on, of `limit` bytes at most. -/
structure LongestRun (limit : Nat) (held : Nat → Option UInt8) (run : List UInt8) : Prop where
  le : run.length ≤ limit
  bytes : ∀ i < run.length, run[i]? = held i
  stop : run.length < limit → held run.length = none

namespace TcpRing

/-- The marks and the marked bytes from `base` on are those of `held`. -/
structure Represents (r : TcpRing) (base : Nat) (held : Nat → Option UInt8) : Prop where
  bit : ∀ i < tcpWindowSize, r.bit base i = (held i).isSome
  byte : ∀ i < tcpWindowSize, ∀ b, held i = some b → r.byte base i = b

theorem Represents.store {r : TcpRing} {seq : BitVec 32} {held : Nat → Option UInt8}
    (h : r.Represents seq.toNat held) (off : Nat) (data : List UInt8) (hoff : off < tcpWindowSize)
    (hfit : off + data.length ≤ tcpWindowSize) :
    (r.store (seq + BitVec.ofNat 32 off) data).Represents seq.toNat (overlay off data held) := by
  constructor
  · intro i hi
    rw [r.store_bit seq off data hoff hfit i hi,h.bit i hi,overlay]
    split_ifs with hin
    · have hlt : i - off < data.length := by omega
      simp [hin,hlt]
    · simp [hin]
  · intro i hi b hb
    rw [r.store_byte seq off data hoff hfit i hi]
    rw [overlay] at hb
    split_ifs at hb ⊢ with hin
    · rw [List.getD_eq_getElem?_getD,hb,Option.getD_some]
    · exact h.byte i hi b hb

end TcpRing

namespace TcpStreamSession

/-- The session holds exactly the bytes of `held`, all of them at positions after `rcv_nxt` and
inside the window. -/
structure Buffers (s : TcpStreamSession) (held : Nat → Option UInt8) : Prop where
  ahead : ∀ i b, held i = some b → 0 < i ∧ i < tcpWindowSize
  bit : ∀ i < tcpWindowSize, s.bit i = (held i).isSome
  byte : ∀ i b, held i = some b → s.byte i = b

theorem Buffers.represents {s : TcpStreamSession} {held : Nat → Option UInt8}
    (h : s.Buffers held) (garbage : Nat → UInt8) :
    (s.initBuffers garbage).Represents s.rcvNxt.toNat held := by
  constructor
  · intro i hi
    rw [initBuffers_bit,h.bit i hi]
  · intro i hi b hb
    have hset : s.bit i = true := by
      rw [h.bit i hi,hb,Option.isSome_some]
    rw [initBuffers_byte garbage hset,h.byte i b hb]

theorem Buffers.of_ring_none {s : TcpStreamSession} (h : s.ring = none) :
    s.Buffers fun _ => none where
  ahead := by simp
  bit := by
    intro i _
    simp [TcpStreamSession.bit,h]
  byte := by simp

/-- The out-of-order branch lays the segment over what the session holds. -/
theorem Buffers.bufferSegment {s : TcpStreamSession} {held : Nat → Option UInt8}
    (h : s.Buffers held) (garbage : Nat → UInt8) {off : Nat} {data : List UInt8} (hpos : 0 < off)
    (hoff : off < tcpWindowSize) (hfit : off + data.length ≤ tcpWindowSize)
    {t : TcpStreamSession} (hnxt : t.rcvNxt = s.rcvNxt)
    (hring : t.ring = some ((s.initBuffers garbage).store (s.rcvNxt + BitVec.ofNat 32 off) data)) :
    t.Buffers (overlay off data held) := by
  have hrep := (h.represents garbage).store off data hoff hfit
  have hahead : ∀ i b, overlay off data held i = some b → 0 < i ∧ i < tcpWindowSize := by
    intro i b hb
    rw [overlay] at hb
    split_ifs at hb with hin
    · omega
    · exact h.ahead i b hb
  refine ⟨hahead,?_,?_⟩
  · intro i hi
    rw [bit_some hring,hnxt]
    exact hrep.bit i hi
  · intro i b hb
    rw [byte_some hring,hnxt]
    exact hrep.byte i (hahead i b hb).2 b hb

section Drained

variable {s t : TcpStreamSession} {r : TcpRing} {n : Nat} {bytes : List UInt8}
  {held : Nat → Option UInt8} (hd : s.Drained r n t bytes)
  (hrep : r.Represents s.rcvNxt.toNat held)
include hd hrep

/-- Draining hands out the longest run. -/
theorem Drained.longestRun : LongestRun tcpWindowSize held bytes := by
  have hlen : bytes.length = n := by simp [hd.bytes]
  have hle := hd.le
  constructor
  · rw [hlen]
    exact hle
  · intro i hi
    have hin : i < n := by omega
    have hset := hd.run i hin
    rw [hrep.bit i (by omega)] at hset
    obtain ⟨b,hb⟩ := Option.isSome_iff_exists.mp hset
    rw [hd.bytes,List.getElem?_map,List.getElem?_range hin,Option.map_some,
      hrep.byte i (by omega) b hb,hb]
  · intro hlt
    rw [hlen] at hlt ⊢
    have hclear := hd.stop hlt
    rw [hrep.bit n hlt] at hclear
    simpa using hclear

/-- What lies beyond the run stays, with its bytes. -/
theorem Drained.buffers : t.Buffers fun i =>
    if bytes.length + i < tcpWindowSize then held (bytes.length + i) else none := by
  have hlen : bytes.length = n := by simp [hd.bytes]
  have hpos := hd.pos
  rw [hlen]
  constructor
  · intro i b hb
    split_ifs at hb with hin
    refine ⟨?_,by omega⟩
    by_contra hzero
    have hi : i = 0 := by omega
    subst hi
    have hclear := hd.stop (by omega)
    rw [hrep.bit n (by omega)] at hclear
    rw [Nat.add_zero] at hb
    rw [hb] at hclear
    cases hclear
  · intro i hi
    rw [hd.bit hi]
    split_ifs with hin
    · rw [hrep.bit _ hin]
      simp [hin]
    · simp [hin]
  · intro i b hb
    split_ifs at hb with hin
    rw [hd.byte,hrep.byte _ hin b hb]

end Drained

/-- The gap filler on a session that holds `held`. -/
theorem Buffers.fillGap {s : TcpStreamSession} {held : Nat → Option UInt8} (h : s.Buffers held)
    {garbage : Nat → UInt8} {data : List UInt8} (hpos : 0 < data.length)
    (hlen : data.length ≤ tcpWindowSize)
    (hpass : (s.initBuffers garbage).overlapConflict s.rcvNxt data = false) :
    ∃ t run, s.fillGap (s.initBuffers garbage) s.rcvNxt data = .accepted t (some run) ∧
      LongestRun tcpWindowSize (overlay 0 data held) run ∧
      t.rcvNxt = s.rcvNxt + BitVec.ofNat 32 run.length ∧ t.state = s.state ∧
      t.Buffers fun i => held (run.length + i) := by
  have hrep := (h.represents garbage).store 0 data (by decide) (by omega)
  rw [BitVec.add_zero] at hrep
  rcases s.fillGap_cases (s.initBuffers garbage) data hpos hlen with ⟨hyes,_⟩ | ⟨_,n,t,run,hc,hd⟩
  · rw [hpass] at hyes
    cases hyes
  · have hrun : run.length = n := by simp [hd.bytes]
    have hfront := hd.le_front hlen
    have hrest : (fun i => if run.length + i < tcpWindowSize then
        overlay 0 data held (run.length + i) else none) = fun i => held (run.length + i) := by
      funext i
      have hout : ¬ (0 ≤ run.length + i ∧ run.length + i < 0 + data.length) := by omega
      rw [overlay,if_neg hout]
      split_ifs with hin
      · rfl
      · cases hheld : held (run.length + i) with
        | none => rfl
        | some b => exact absurd (h.ahead _ b hheld).2 hin
    refine ⟨t,run,hc,hd.longestRun hrep,?_,hd.state,?_⟩
    · rw [hrun]
      exact hd.rcvNxt
    · rw [← hrest]
      exact hd.buffers hrep

end TcpStreamSession

namespace TcpAssemblerEngine

open TcpStreamSession

/-- A segment that reaches back to `rcv_nxt`, in a session that counts waiting segments, goes
to the gap filler. -/
theorem received_front {c : PacketCall} {s : TcpStreamSession} (hpos : 0 < c.packet.payload.length)
    (hin : s.inWindow c.packet.seq c.packet.payload = true)
    (hcount : s.outOfOrderCount ≠ 0#16) (hfront : (segment c s).1 = s.rcvNxt) :
    0 < (segment c s).2.length ∧ (segment c s).2.length ≤ tcpWindowSize ∧
      received c s = (s.awake c.nowNs).fillGap ((s.awake c.nowNs).initBuffers c.garbage)
        s.rcvNxt (segment c s).2 := by
  obtain ⟨off,k,hp⟩ := s.inWindow_placed c.packet.seq c.packet.payload hpos c.packet.payload_lt hin
  have hzero : off = 0 := by
    rw [segment,hp.trim] at hfront
    exact (add_eq_self _ hp.off_lt.le).mp hfront
  subst hzero
  have hp' : (s.awake c.nowNs).Placed c.packet.seq c.packet.payload 0 k := ⟨hp.trim,hp.behind,
    hp.fits,hp.seq_eq,hp.cut⟩
  have hslow : ¬ (0 = 0 ∧ (s.awake c.nowNs).outOfOrderCount = 0#16) := fun hc => hcount hc.2
  have hfit := hp.fits
  simp only [segment,hp.trim]
  refine ⟨hp.nonempty,by omega,?_⟩
  rw [received,receiveData_placed hp' hin,if_neg hslow,if_neg (lt_irrefl 0)]
  rfl

/-- A data segment that starts at `rcv_nxt` after trimming and passes the overlap check, in an
established session with segments waiting: the longest run of what the session holds and the
segment is handed out, and what is held beyond it stays. -/
theorem gap_fill_delivers (e : TcpAssemblerEngine) (c : PacketCall) (s : TcpStreamSession)
    (hmeet : e.Meets c s) (hstate : s.state = .established) (hcount : s.outOfOrderCount ≠ 0#16)
    (held : Nat → Option UInt8) (hheld : s.Buffers held)
    (hrst : c.packet.has thRst = false) (hsyn : c.packet.has thSyn = false)
    (hfin : c.packet.has thFin = false) (hpos : 0 < c.packet.payload.length)
    (hin : s.inWindow c.packet.seq c.packet.payload = true)
    (hfront : (segment c s).1 = s.rcvNxt)
    (hpass : (s.initBuffers c.garbage).overlapConflict s.rcvNxt (segment c s).2 = false) :
    ∃ u p t run,
      e.processPacket c = .ok (u,portsOf c.packet { isReady := true, payload := run } (some p)) ∧
      u.sessions.find c.packet.key = .ok (some p) ∧ u.heap.mem p = some t ∧
      LongestRun tcpWindowSize (overlay 0 (segment c s).2 held) run ∧
      t.rcvNxt = s.rcvNxt + BitVec.ofNat 32 run.length ∧ t.state = .established ∧
      t.Buffers fun i => held (run.length + i) := by
  obtain ⟨hdata,hfit,hreceived⟩ := received_front hpos hin hcount hfront
  have hawake : (s.awake c.nowNs).Buffers held := ⟨hheld.ahead,hheld.bit,hheld.byte⟩
  obtain ⟨t,run,hfill,hrun,hnxt,hopen,hrest⟩ := hawake.fillGap hdata hfit hpass
  have htake : s.takesData c.packet = true := by
    simp [takesData,hstate,hrst,hsyn]
  have hon := (onPacket_received htake hpos).2 t (some run) (hreceived.trans hfill) hfin
  obtain ⟨v,p,_,hfind,hs,hcall⟩ := hmeet.lookup (not_refused hsyn)
  refine ⟨{ v with heap := v.heap.set p t },p,t,run,?_,hfind,v.heap.set_mem_self t hs,hrun,hnxt,
    hopen,hrest⟩
  rw [hcall]
  simp only [updateSession,hs,hon]
  rfl

/-- The ten bytes in front of those that `aheadCalls` brought. -/
def gapCall : PacketCall := sampleCall thAck 1 [0,1,2,3,4,5,6,7,8,9] (by decide)

theorem aheadSession_buffers :
    aheadSession.Buffers (overlay 10 [7,7] fun _ => none) :=
  (Buffers.of_ring_none (s := sampleStart) rfl).bufferSegment (fun _ => 0) (by decide) (by decide)
    (by decide) rfl rfl

theorem gap_fill_delivers_ahead :
    ∃ u p t run, (sampleEngine aheadSession).processPacket gapCall =
        .ok (u,portsOf gapCall.packet { isReady := true, payload := run } (some p)) ∧
      u.sessions.find gapCall.packet.key = .ok (some p) ∧ u.heap.mem p = some t ∧
      LongestRun tcpWindowSize (overlay 0 (segment gapCall aheadSession).2
        (overlay 10 [7,7] fun _ => none)) run ∧
      t.rcvNxt = aheadSession.rcvNxt + BitVec.ofNat 32 run.length ∧ t.state = .established ∧
      t.Buffers fun i => overlay 10 [7,7] (fun _ => none) (run.length + i) :=
  gap_fill_delivers (sampleEngine aheadSession) gapCall aheadSession
    ((sampleEngine_meets rfl rfl).mpr rfl) (by decide +kernel) (by decide +kernel) _
    aheadSession_buffers (by decide) (by decide) (by decide) (by decide) (by decide +kernel)
    (by decide +kernel) (by decide +kernel)

end TcpAssemblerEngine

end Aethon
