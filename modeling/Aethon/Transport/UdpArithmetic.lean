import Aethon.Transport.UdpEngine

/-!
# The arithmetic of a reassembly session

`add_fragment` once more, on machine integers, with every index checked against the array it
is used on and every copy into the buffer recorded. No reachable session meets a check, the
counters never wrap, and the number of received bytes is the sum of the recorded copies.
-/

namespace Aethon

open Framework Fragment

def totalBlocks : Nat := (maxIpDatagramSize + 1) / 8
def bitmapWords : Nat := totalBlocks / 64

/-- One `memcpy` of the block loop. -/
structure BlockCopy where
  block : Nat
  bytes : Nat

/-- A session and the copies that were made into its buffer. -/
structure TracedSession where
  session : ReassemblySession
  copies : List BlockCopy

namespace TracedSession

open ReassemblySession

/-- The body of the block loop: the bitmap word, the buffer range and the payload range that it
uses have to exist. -/
def writeBlock (f : Fragment) (t : TracedSession) (b : Nat) : Checked TracedSession :=
  if b >>> 6 ≥ bitmapWords then .error .outOfBounds
  else if isBlockWritten t.session.blockBitmap b then .ok t
  else
    let blockDatagramOffset := b <<< 3
    let copyStartInPayload :=
      if blockDatagramOffset ≥ f.offset then blockDatagramOffset - f.offset else 0
    let bytesToCopy :=
      if copyStartInPayload + 8 > f.len then (f.len + 2 ^ 64 - copyStartInPayload) % 2 ^ 64
      else 8
    if blockDatagramOffset < maxIpDatagramSize ∧
        blockDatagramOffset + bytesToCopy ≤ maxIpDatagramSize ∧
        copyStartInPayload < f.len ∧ copyStartInPayload + bytesToCopy ≤ f.len then
      .ok
        { session := { t.session with
            buffer := copyBytes t.session.buffer blockDatagramOffset f.payload copyStartInPayload
              bytesToCopy
            blockBitmap := markBlockWritten t.session.blockBitmap b
            receivedBytes := (t.session.receivedBytes + bytesToCopy) % 2 ^ 32 }
          copies := t.copies ++ [⟨b,bytesToCopy⟩] }
    else .error .outOfBounds

def addFragment (t : TracedSession) (f : Fragment) : Checked (Bool × TracedSession) :=
  if !checkFragment f then .ok (false,t)
  else if f.offset + f.len > maxIpDatagramSize then .ok (false,t)
  else
    let s := { t.session with fragmentCount := (t.session.fragmentCount + 1) % 2 ^ 16 }
    if s.fragmentCount > maxIpDatagramFragmentPerId then .ok (false,{ t with session := s })
    else if f.offset ≥ maxIpDatagramSize then .error .outOfBounds
    else do
      let s := if f.moreFragments then s
        else { s with hasLastFragment := true, totalExpectedLen := (f.offset + f.len) % 2 ^ 32 }
      let t ← (blocks f).foldlM (writeBlock f) { t with session := s }
      return (true,t)

/-- The sessions that accepted fragments build. -/
inductive Traced : TracedSession → Prop
  | new (nowNs : BitVec 64) : Traced ⟨{ createdAtNs := nowNs },[]⟩
  | add {t u : TracedSession} {f : Fragment} (h : Traced t) (hadd : t.addFragment f = .ok (true,u)) :
      Traced u

/-- Number of bytes that were copied into a block. -/
def bytesInto (copies : List BlockCopy) (b : Nat) : Nat :=
  ((copies.filter fun c => c.block = b).map BlockCopy.bytes).sum

/-- The counters of a session against the copies made into it. -/
structure Tallied (t : TracedSession) : Prop where
  nodup : (t.copies.map BlockCopy.block).Nodup
  bits : ∀ b, bitAt t.session.blockBitmap b = true ↔ b ∈ t.copies.map BlockCopy.block
  received : t.session.receivedBytes = (t.copies.map BlockCopy.bytes).sum
  inside : ∀ c ∈ t.copies, c.block < totalBlocks ∧ c.bytes ≤ min 8 (maxIpDatagramSize - c.block * 8)

/-- Blocks that are copied into once each together hold no more than a datagram. -/
theorem Tallied.received_le {t : TracedSession} (h : Tallied t) :
    t.session.receivedBytes ≤ maxIpDatagramSize := by
  have hle : (t.copies.map BlockCopy.bytes).sum ≤
      ((t.copies.map BlockCopy.block).map fun b => min 8 (maxIpDatagramSize - b * 8)).sum := by
    rw [List.map_map]
    exact List.sum_le_sum fun c hc => (h.inside c hc).2
  have hsub : (t.copies.map BlockCopy.block).toFinset ⊆ Finset.range totalBlocks := by
    intro b hb
    obtain ⟨c,hc,rfl⟩ := List.mem_map.mp (List.mem_toFinset.mp hb)
    exact Finset.mem_range.mpr (h.inside c hc).1
  rw [h.received]
  refine hle.trans ?_
  rw [← List.sum_toFinset _ h.nodup]
  refine (Finset.sum_le_sum_of_subset hsub).trans ?_
  rw [sum_block]
  exact min_le_left ..

theorem tallied_new (nowNs : BitVec 64) : Tallied ⟨{ createdAtNs := nowNs },[]⟩ where
  nodup := by simp
  bits := by simp [bitAt]
  received := rfl
  inside := by simp

/-- A block of an accepted fragment passes the checks and is tallied. -/
theorem Tallied.writeBlock {t : TracedSession} (h : Tallied t) {f : Fragment} (hf : f.Acceptable)
    {b : Nat} (hb : b ∈ blocks f) :
    ∃ u, t.writeBlock f b = .ok u ∧ u.session = ReassemblySession.writeBlock f t.session b ∧
      Tallied u := by
  obtain ⟨_,_,halign,_⟩ := (checkFragment_iff f).mp hf.1
  have htouch := (mem_blocks hf b).mp hb
  have hsize := hf.2
  simp only [Touches,stop] at htouch
  unfold maxIpDatagramSize at hsize
  have hshift : b <<< 3 = b * 8 := Nat.shiftLeft_eq b 3
  have hword : ¬b >>> 6 ≥ bitmapWords := by
    rw [Nat.shiftRight_eq_div_pow,bitmapWords,totalBlocks,maxIpDatagramSize]
    omega
  cases hw : bitAt t.session.blockBitmap b with
  | true =>
    refine ⟨t,?_,?_,h⟩
    · simp [TracedSession.writeBlock,hword,isBlockWritten_eq,hw]
    · simp [ReassemblySession.writeBlock,isBlockWritten_eq,hw]
  | false =>
    have hle : f.offset ≤ b * 8 := by omega
    have hbytes : (if b * 8 - f.offset + 8 > f.len then
        (f.len + 2 ^ 64 - (b * 8 - f.offset)) % 2 ^ 64 else 8) = min 8 (f.stop - b * 8) := by
      have := f.len_lt
      unfold stop
      split_ifs with hpart
      · have hlen : f.len = f.payload.length := rfl
        omega
      · omega
    have hrecv := h.received_le
    unfold maxIpDatagramSize at hrecv
    have hchecks : b * 8 < maxIpDatagramSize ∧
        b * 8 + min 8 (f.stop - b * 8) ≤ maxIpDatagramSize ∧ b * 8 - f.offset < f.len ∧
        b * 8 - f.offset + min 8 (f.stop - b * 8) ≤ f.len := by
      unfold maxIpDatagramSize stop
      omega
    have hnowrap : (t.session.receivedBytes + min 8 (f.stop - b * 8)) % 2 ^ 32 =
        t.session.receivedBytes + min 8 (f.stop - b * 8) := Nat.mod_eq_of_lt (by omega)
    refine ⟨⟨ReassemblySession.writeBlock f t.session b,
      t.copies ++ [⟨b,min 8 (f.stop - b * 8)⟩]⟩,?_,rfl,?_⟩
    · rw [TracedSession.writeBlock,if_neg hword,isBlockWritten_eq,hw,if_neg (by simp)]
      simp only [hshift,if_pos hle,hbytes]
      rw [if_pos hchecks,hnowrap,writeBlock_unwritten hle hw]
    · rw [writeBlock_unwritten hle hw]
      have hnew : b ∉ t.copies.map BlockCopy.block := fun hmem => by
        rw [(h.bits b).mpr hmem] at hw
        cases hw
      constructor
      · rw [List.map_append]
        exact List.Nodup.append h.nodup (by simp) (by simpa using hnew)
      · intro i
        rw [bitAt_markBlockWritten,Bool.or_eq_true,h.bits]
        simp
      · simp [h.received]
      · intro c hc
        rcases List.mem_append.mp hc with hold | hone
        · exact h.inside c hold
        · rw [List.mem_singleton.mp hone]
          unfold totalBlocks maxIpDatagramSize
          dsimp only
          unfold stop
          omega

/-- The whole block loop. -/
theorem Tallied.foldlM_writeBlock {f : Fragment} (hf : f.Acceptable) (bs : List Nat)
    (hbs : ∀ b ∈ bs, b ∈ blocks f) {t : TracedSession} (h : Tallied t) :
    ∃ u, bs.foldlM (TracedSession.writeBlock f) t = .ok u ∧
      u.session = bs.foldl (ReassemblySession.writeBlock f) t.session ∧ Tallied u := by
  induction bs generalizing t with
  | nil => exact ⟨t,rfl,rfl,h⟩
  | cons b bs ih =>
    obtain ⟨v,hv,hsession,hvt⟩ := h.writeBlock hf (hbs b (by simp))
    obtain ⟨u,hu,husession,hut⟩ := ih (fun c hc => hbs c (by simp [hc])) hvt
    refine ⟨u,?_,?_,hut⟩
    · rw [List.foldlM_cons,bind_ok_iff]
      exact ⟨v,hv,hu⟩
    · rw [husession,hsession,List.foldl_cons]

/-- The bounds of a session. -/
structure Bounded (t : TracedSession) : Prop where
  tallied : Tallied t
  count : t.session.fragmentCount ≤ maxIpDatagramFragmentPerId
  total : t.session.totalExpectedLen = 0 ∨
    8 ≤ t.session.totalExpectedLen ∧ t.session.totalExpectedLen ≤ maxIpDatagramSize

theorem counted_tallied {t : TracedSession} (h : Tallied t) (f : Fragment) :
    Tallied ⟨counted t.session f,t.copies⟩ := by
  have hsame : (counted t.session f).blockBitmap = t.session.blockBitmap ∧
      (counted t.session f).receivedBytes = t.session.receivedBytes := by
    unfold counted
    split_ifs <;> exact ⟨rfl,rfl⟩
  constructor
  · exact h.nodup
  · simpa only [hsame.1] using h.bits
  · simpa only [hsame.2] using h.received
  · exact h.inside

/-- The end of an accepted fragment can be the end of a UDP datagram. -/
theorem stop_bounds {f : Fragment} (hf : f.Acceptable) :
    8 ≤ f.stop ∧ f.stop ≤ maxIpDatagramSize := by
  obtain ⟨_,hpos,halign,hfirst⟩ := (checkFragment_iff f).mp hf.1
  refine ⟨?_,hf.2⟩
  unfold stop
  omega

theorem Bounded.addFragment_accept {t : TracedSession} (h : Bounded t) {f : Fragment}
    (hf : f.Acceptable) (hroom : t.session.fragmentCount < maxIpDatagramFragmentPerId) :
    ∃ u, t.addFragment f = .ok ((t.session.addFragment f).1,u) ∧
      u.session = (t.session.addFragment f).2 ∧
      ((t.session.addFragment f).1 = true → Bounded u) := by
  obtain ⟨u,hu,hsession,htallied⟩ := Tallied.foldlM_writeBlock hf (blocks f) (fun _ hb => hb)
    (counted_tallied h.tallied f)
  have hcopied := foldl_writeBlock hf (blocks f) (blocks_nodup f) (fun _ hb => hb)
    (counted t.session f)
  rw [← hsession] at hcopied
  have hsize := hf.2
  have hpos := ((checkFragment_iff f).mp hf.1).2.1
  unfold maxIpDatagramFragmentPerId at hroom
  unfold maxIpDatagramSize at hsize
  have hcounted : (if f.moreFragments then
        { t.session with fragmentCount := (t.session.fragmentCount + 1) % 2 ^ 16 }
      else { t.session with
        fragmentCount := (t.session.fragmentCount + 1) % 2 ^ 16
        hasLastFragment := true
        totalExpectedLen := (f.offset + f.len) % 2 ^ 32 }) = counted t.session f := by
    rw [counted,Nat.mod_eq_of_lt (by omega),Nat.mod_eq_of_lt (by omega)]
  rw [ReassemblySession.addFragment_accept hf hroom]
  refine ⟨u,?_,hsession,fun _ => ⟨htallied,?_,?_⟩⟩
  · have hcount : ¬(t.session.fragmentCount + 1) % 2 ^ 16 > maxIpDatagramFragmentPerId := by
      unfold maxIpDatagramFragmentPerId
      omega
    have hoffset : ¬f.offset ≥ maxIpDatagramSize := by
      unfold maxIpDatagramSize
      omega
    rw [TracedSession.addFragment,if_neg (by simp [hf.1]),if_neg (not_lt.mpr hf.2)]
    dsimp only
    rw [if_neg hcount,if_neg hoffset,hcounted,bind_ok_iff]
    exact ⟨u,hu,rfl⟩
  · have hcount : (counted t.session f).fragmentCount = t.session.fragmentCount + 1 := by
      unfold counted
      split_ifs <;> rfl
    rw [hcopied.fragmentCount,hcount]
    exact hroom
  · rw [hcopied.totalExpectedLen,counted]
    split_ifs
    · exact h.total
    · exact Or.inr (stop_bounds hf)

/-- Adding any fragment to a bounded session passes all checks, does what the model on
natural numbers does, and keeps the bounds unless the session is given up. -/
theorem Bounded.addFragment {t : TracedSession} (h : Bounded t) (f : Fragment) :
    ∃ u, t.addFragment f = .ok ((t.session.addFragment f).1,u) ∧
      u.session = (t.session.addFragment f).2 ∧
      ((t.session.addFragment f).1 = true → Bounded u) := by
  have hcount := h.count
  have hnowrap : (t.session.fragmentCount + 1) % 2 ^ 16 = t.session.fragmentCount + 1 := by
    unfold maxIpDatagramFragmentPerId at hcount
    omega
  by_cases hcheck : checkFragment f = true
  · by_cases hsize : f.offset + f.len > maxIpDatagramSize
    · refine ⟨t,?_,?_,?_⟩
      · simp [TracedSession.addFragment,ReassemblySession.addFragment,hcheck,hsize]
      · simp [ReassemblySession.addFragment,hcheck,hsize]
      · simp [ReassemblySession.addFragment,hcheck,hsize]
    · by_cases hfull : t.session.fragmentCount + 1 > maxIpDatagramFragmentPerId
      · refine ⟨{ t with
          session := { t.session with fragmentCount := t.session.fragmentCount + 1 } },?_,?_,?_⟩
        · simp only [TracedSession.addFragment,ReassemblySession.addFragment,hcheck,hsize,hnowrap,
            hfull,if_true,if_false,Bool.not_true,Bool.false_eq_true]
        · simp [ReassemblySession.addFragment,hcheck,hsize,hfull]
        · simp [ReassemblySession.addFragment,hcheck,hsize,hfull]
      · exact h.addFragment_accept ⟨hcheck,not_lt.mp hsize⟩ (by omega)
  · refine ⟨t,?_,?_,?_⟩
    · simp [TracedSession.addFragment,ReassemblySession.addFragment,hcheck]
    · simp [ReassemblySession.addFragment,hcheck]
    · simp [ReassemblySession.addFragment,hcheck]

theorem Traced.bounded {t : TracedSession} (h : Traced t) : Bounded t := by
  induction h with
  | new nowNs => exact ⟨tallied_new nowNs,Nat.zero_le _,Or.inl rfl⟩
  | @add t u f _ hadd ih =>
    obtain ⟨v,hv,_,hbounded⟩ := ih.addFragment f
    rw [hadd] at hv
    obtain ⟨haccepted,rfl⟩ := Prod.mk.inj (Except.ok.inj hv)
    exact hbounded haccepted.symm

theorem Traced.addFragment {t : TracedSession} (h : Traced t) {f : Fragment}
    (haccepted : (t.session.addFragment f).1 = true) :
    ∃ copies, Traced ⟨(t.session.addFragment f).2,copies⟩ := by
  obtain ⟨u,hu,hsession,_⟩ := h.bounded.addFragment f
  rw [haccepted] at hu
  refine ⟨u.copies,?_⟩
  rw [← hsession]
  exact h.add hu

theorem bytesInto_cons (c : BlockCopy) (copies : List BlockCopy) (b : Nat) :
    bytesInto (c :: copies) b = (if c.block = b then c.bytes else 0) + bytesInto copies b := by
  unfold bytesInto
  by_cases h : c.block = b <;> simp [h]

theorem sum_bytesInto (blocks : Finset Nat) (copies : List BlockCopy)
    (h : ∀ c ∈ copies, c.block ∈ blocks) :
    ∑ b ∈ blocks, bytesInto copies b = (copies.map BlockCopy.bytes).sum := by
  induction copies with
  | nil => simp [bytesInto]
  | cons c copies ih =>
    simp only [bytesInto_cons,Finset.sum_add_distrib,Finset.sum_ite_eq,h c (by simp),if_true,
      List.map_cons,List.sum_cons]
    rw [ih fun d hd => h d (by simp [hd])]

/-- The received bytes, block by block. -/
theorem Tallied.received_eq {t : TracedSession} (h : Tallied t) :
    t.session.receivedBytes =
      ∑ b ∈ (Finset.range totalBlocks).filter fun b => bitAt t.session.blockBitmap b = true,
        bytesInto t.copies b := by
  rw [sum_bytesInto _ t.copies,h.received]
  intro c hc
  rw [Finset.mem_filter,Finset.mem_range,h.bits]
  exact ⟨(h.inside c hc).1,List.mem_map_of_mem hc⟩

/-- Every bit of the bitmap belongs to a block of the buffer. -/
theorem Tallied.bit_lt {t : TracedSession} (h : Tallied t) {b : Nat}
    (hb : bitAt t.session.blockBitmap b = true) : b < totalBlocks := by
  obtain ⟨c,hc,rfl⟩ := List.mem_map.mp ((h.bits b).mp hb)
  exact (h.inside c hc).1

end TracedSession

namespace UDPassemblerEngine

open TracedSession

/-- Every session of the heap, stored or completed, was built by accepted fragments. -/
def HeapTraced (e : UDPassemblerEngine) : Prop :=
  ∀ p s, e.heap.mem p = some s → ∃ copies, Traced ⟨s,copies⟩

theorem HeapTraced.free {e : UDPassemblerEngine} (h : HeapTraced e) (p : Nat)
    (sessions : SingleThreadHashMap FragmentKey Nat) :
    HeapTraced { e with sessions := sessions, heap := e.heap.free p } := by
  intro q s hs
  rw [Heap.free_mem] at hs
  split_ifs at hs
  exact h q s hs

theorem HeapTraced.purgeCell {e u : UDPassemblerEngine} (h : HeapTraced e) {nowNs : BitVec 64}
    {i : Nat} (hrun : e.purgeCell nowNs i = .ok u) : HeapTraced u := by
  unfold UDPassemblerEngine.purgeCell at hrun
  dsimp only at hrun
  split_ifs at hrun
  · cases hrun
    exact h
  · cases hmem : e.heap.mem (e.sessions.cells i).val with
    | none =>
      rw [hmem] at hrun
      cases hrun
    | some session =>
      rw [hmem] at hrun
      dsimp only at hrun
      split_ifs at hrun
      · obtain ⟨⟨_,sessions⟩,_,hret⟩ := (bind_ok_iff ..).mp hrun
        cases hret
        exact h.free _ sessions
      · cases hrun
        exact h

theorem HeapTraced.cleanup {e u : UDPassemblerEngine} (h : HeapTraced e) {nowNs : BitVec 64}
    (hrun : e.cleanup nowNs = .ok u) : HeapTraced u := by
  unfold UDPassemblerEngine.cleanup at hrun
  split_ifs at hrun
  · obtain ⟨t,hpurge,hret⟩ := (bind_ok_iff ..).mp hrun
    cases hret
    have ht : HeapTraced t := foldlM_keeps (fun _ _ _ hs hcell => hs.purgeCell hcell) _ h hpurge
    exact ht
  · cases hrun
    exact h

theorem HeapTraced.feedSession {e u : UDPassemblerEngine} (h : HeapTraced e) {key : FragmentKey}
    {p : Nat} {f : Fragment} {res : AssemblyResult}
    (hrun : e.feedSession key p f = .ok (u,res)) : HeapTraced u := by
  unfold UDPassemblerEngine.feedSession at hrun
  cases hmem : e.heap.mem p with
  | none =>
    rw [hmem] at hrun
    cases hrun
  | some s =>
    rw [hmem] at hrun
    dsimp only at hrun
    obtain ⟨copies,htraced⟩ := h p s hmem
    cases hacc : (s.addFragment f).1 with
    | false =>
      rw [hacc] at hrun
      obtain ⟨⟨_,sessions⟩,_,hret⟩ := (bind_ok_iff ..).mp hrun
      cases hret
      exact h.free p sessions
    | true =>
      have hset : HeapTraced { e with heap := e.heap.set p (s.addFragment f).2 } := by
        intro q s' hs'
        rw [Heap.set_mem] at hs'
        split_ifs at hs'
        · rw [hmem] at hs'
          cases hs'
          exact htraced.addFragment hacc
        · exact h q s' hs'
      rw [hacc] at hrun
      simp only [Bool.not_true,Bool.false_eq_true,if_false] at hrun
      split_ifs at hrun
      · obtain ⟨⟨_,sessions⟩,_,hret⟩ := (bind_ok_iff ..).mp hrun
        cases hret
        exact hset
      · cases hrun
        exact hset

theorem HeapTraced.processFragment {e u : UDPassemblerEngine} (h : HeapTraced e)
    {key : FragmentKey} {c : FragmentCall} {res : AssemblyResult}
    (hrun : UDPassemblerEngine.processFragment key e c = .ok (u,res)) : HeapTraced u := by
  unfold UDPassemblerEngine.processFragment at hrun
  obtain ⟨t,hclean,hrun⟩ := (bind_ok_iff ..).mp hrun
  have ht := h.cleanup hclean
  obtain ⟨slot,_,hrun⟩ := (bind_ok_iff ..).mp hrun
  cases slot with
  | some p => exact ht.feedSession hrun
  | none =>
    dsimp only at hrun
    split_ifs at hrun
    · cases hrun
      exact ht
    · cases hrun
      exact ht
    · obtain ⟨⟨_,sessions⟩,_,hrun⟩ := (bind_ok_iff ..).mp hrun
      refine HeapTraced.feedSession ?_ hrun
      exact t.heap.forall_alloc ht { createdAtNs := c.nowNs } ⟨[],.new c.nowNs⟩

/-- The sessions that calls of `process_fragment` create or leave behind. -/
def Reached (s : ReassemblySession) : Prop :=
  (∃ nowNs, s = { createdAtNs := nowNs }) ∨
    ∃ calls u outs p, runOut observe (new,fun _ => []) calls = .ok (u,outs) ∧
      u.1.heap.mem p = some s

theorem observe_traced {st st' : UDPassemblerEngine × (FragmentKey → List Fragment)}
    {call : FragmentKey × FragmentCall} {o : Observation} (h : HeapTraced st.1)
    (hs : observe st call = .ok (st',o)) : HeapTraced st'.1 := by
  simp only [observe,bind_ok_iff] at hs
  obtain ⟨_,_,⟨u,res⟩,hcall,hret⟩ := hs
  cases hret
  exact h.processFragment hcall

theorem Reached.traced {s : ReassemblySession} (h : Reached s) : ∃ copies, Traced ⟨s,copies⟩ := by
  rcases h with ⟨nowNs,rfl⟩ | ⟨calls,u,outs,p,hr,hmem⟩
  · exact ⟨[],.new nowNs⟩
  · have htraced := runOut_invariant (I := fun st (_ : List Observation) => HeapTraced st.1)
      (C := fun _ _ => True) (fun _ _ _ _ _ hi _ hs => observe_traced hi hs) calls
      (new,fun _ => []) u [] outs (fun q s' hs' => by cases hs') (Along.of_always (by simp) _ _) hr
    exact htraced p s hmem

/-- The datagram that a call reports is the session's buffer behind the UDP header. -/
def ExactPayload (o : Observation) : Prop :=
  o.result.isComplete = true → ∃ s, o.session = some s ∧ 8 ≤ s.totalExpectedLen ∧
    s.totalExpectedLen ≤ maxIpDatagramSize ∧
    o.result.payload.length + 8 = s.totalExpectedLen

theorem observe_exactPayload {st st' : UDPassemblerEngine × (FragmentKey → List Fragment)}
    {call : FragmentKey × FragmentCall} {o : Observation} (h : EngineWf st.1 st.2)
    (hs : observe st call = .ok (st',o)) : ExactPayload o := by
  simp only [observe,bind_ok_iff] at hs
  obtain ⟨log,hlog,⟨u,res⟩,hcall,hret⟩ := hs
  cases hret
  have hne : call.1 ≠ kEmptyFragmentKey := by
    intro hkey
    rw [hkey,processFragment_sentinel h call.2] at hcall
    cases hcall
  obtain ⟨u',res',log',hcall',hlog',hwf,hrep⟩ := h.processFragment hne call.2
  rw [hcall] at hcall'
  cases hcall'
  intro hc
  obtain ⟨p,s,hb,hcomplete,hmem,rfl⟩ := hrep hc
  obtain ⟨hlo,hhi⟩ := hb.total_bounds hcomplete
  refine ⟨s,hmem,hlo,hhi,?_⟩
  simp only [completedResult,List.length_map,List.length_range]
  omega

/-- Runs whose keys are no sentinel return. -/
theorem observe_total (calls : List (FragmentKey × FragmentCall))
    (hkeys : ∀ call ∈ calls, call.1 ≠ kEmptyFragmentKey) :
    ∃ u outs, runOut observe (new,fun _ => []) calls = .ok (u,outs) := by
  refine runOut_total (C := fun _ call => call.1 ≠ kEmptyFragmentKey)
    (I := fun st => EngineWf st.1 st.2) ?_ calls (new,fun _ => []) (new_engineWf _)
    (Along.of_forall calls _ hkeys)
  rintro ⟨e,logs⟩ ⟨key,c⟩ hwf hne
  obtain ⟨u,res,log,hcall,hlog,hwf',_⟩ := hwf.processFragment hne c
  refine ⟨(u,Function.update logs key log),⟨log,res,res.completedSession.bind u.heap.mem⟩,?_,hwf'⟩
  simp only [observe,bind_ok_iff]
  exact ⟨log,hlog,(u,res),hcall,rfl⟩

/-- The arithmetic of UDP reassembly: calls with any fragments return, every session they reach
has counted exactly the bytes copied into its blocks and stays in its bounds, the next fragment,
whatever it is, passes every index check of `add_fragment`, and a reported payload length does
not underflow. -/
theorem udp_session_arithmetic :
    (∀ s, Reached s → ∃ copies, Traced ⟨s,copies⟩ ∧
      s.receivedBytes = ∑ b ∈ (Finset.range totalBlocks).filter fun b =>
        bitAt s.blockBitmap b = true, bytesInto copies b ∧
      (∀ b, bitAt s.blockBitmap b = true → b < totalBlocks) ∧
      s.receivedBytes ≤ 65535 ∧ s.fragmentCount ≤ 64 ∧
      (s.totalExpectedLen = 0 ∨ 8 ≤ s.totalExpectedLen ∧ s.totalExpectedLen ≤ 65535) ∧
      ∀ f, ∃ u, TracedSession.addFragment ⟨s,copies⟩ f = .ok ((s.addFragment f).1,u) ∧
        u.session = (s.addFragment f).2) ∧
    (∀ calls : List (FragmentKey × FragmentCall), (∀ call ∈ calls, call.1 ≠ kEmptyFragmentKey) →
      ∃ u outs, runOut observe (new,fun _ => []) calls = .ok (u,outs)) ∧
    ∀ calls u outs, runOut observe (new,fun _ => []) calls = .ok (u,outs) →
      ∀ o ∈ outs, ExactPayload o := by
  refine ⟨?_,observe_total,?_⟩
  · intro s hs
    obtain ⟨copies,htraced⟩ := hs.traced
    have hbounded := htraced.bounded
    refine ⟨copies,htraced,hbounded.tallied.received_eq,fun b => hbounded.tallied.bit_lt,
      hbounded.tallied.received_le,hbounded.count,hbounded.total,?_⟩
    intro f
    obtain ⟨u,hu,hsession,_⟩ := hbounded.addFragment f
    exact ⟨u,hu,hsession⟩
  · intro calls u outs hr
    have hinv := runOut_invariant
      (I := fun st (os : List Observation) => EngineWf st.1 st.2 ∧ ∀ o ∈ os, ExactPayload o)
      (C := fun _ _ => True)
      (by
        intro st call st' o os hi _ hs
        refine ⟨(observe_step hi.1 hs).1,?_⟩
        intro o' ho'
        rcases List.mem_append.mp ho' with ho' | ho'
        · exact hi.2 o' ho'
        · rw [List.mem_singleton.mp ho']
          exact observe_exactPayload hi.1 hs)
      calls (new,fun _ => []) u [] outs ⟨new_engineWf _,by simp⟩ (Along.of_always (by simp) _ _) hr
    simpa using hinv.2

theorem udp_session_arithmetic_whole :
    ∃ u outs, runOut observe (new,fun _ => []) wholeCalls = .ok (u,outs) ∧
      ∀ o ∈ outs, ExactPayload o := by
  have hkeys : ∀ call ∈ wholeCalls, call.1 ≠ kEmptyFragmentKey := by
    intro call hcall
    simp only [wholeCalls,List.mem_cons,List.not_mem_nil,or_false] at hcall
    rcases hcall with rfl | rfl <;> decide
  obtain ⟨_,htotal,hexact⟩ := udp_session_arithmetic
  obtain ⟨u,outs,hr⟩ := htotal wholeCalls hkeys
  exact ⟨u,outs,hr,hexact wholeCalls u outs hr⟩

end UDPassemblerEngine

end Aethon
