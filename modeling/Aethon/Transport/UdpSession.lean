import Aethon.Framework.FirstWriter
import Aethon.Transport.UdpAssembler

/-!
# What a reassembly session holds

A session that accepted the fragments of a log owns each 8-byte block to the first of them
that meets it. The received-byte count is the sum over the blocks, so it decides coverage
as long as no accepted fragment ends beyond the expected length.
-/

namespace Aethon

open Framework

namespace Fragment

/-- The byte of the fragment at a position of the datagram. -/
def byteAt (f : Fragment) (p : Nat) : UInt8 := f.payload.getD (p - f.offset) 0

/-- The fragments that pass `check_fragment` and the size check. -/
def Acceptable (f : Fragment) : Prop :=
  ReassemblySession.checkFragment f = true ∧ f.offset + f.len ≤ maxIpDatagramSize

/-- First accepted fragment that covers a position. -/
def firstCover (log : List Fragment) (p : Nat) : Option Fragment := coverer offset stop log p

/-- Accepted fragment that owns an 8-byte block. -/
def blockOwner (log : List Fragment) (b : Nat) : Option Fragment := owner 8 offset stop log b

/-- End of the most recent fragment with MF = 0. -/
def lastStop (log : List Fragment) : Option Nat :=
  (log.reverse.find? fun f => !f.moreFragments).map stop

theorem lastStop_append (log : List Fragment) (f : Fragment) :
    lastStop (log ++ [f]) = if f.moreFragments then lastStop log else some f.stop := by
  cases h : f.moreFragments <;> simp [lastStop,h]

theorem lastStop_mem {log : List Fragment} {T : Nat} (h : lastStop log = some T) :
    ∃ f ∈ log, f.moreFragments = false ∧ f.stop = T := by
  obtain ⟨f,hf,rfl⟩ := Option.map_eq_some_iff.mp h
  have hmem := List.mem_of_find?_eq_some hf
  have hmf := List.find?_some hf
  exact ⟨f,by simpa using hmem,by simpa using hmf,rfl⟩

theorem lastStop_isSome {log : List Fragment} {f : Fragment} (hmem : f ∈ log)
    (hmf : f.moreFragments = false) : ∃ T, lastStop log = some T := by
  cases h : lastStop log with
  | some T => exact ⟨T,rfl⟩
  | none =>
    have hnone := List.find?_eq_none.mp (Option.map_eq_none_iff.mp h) f (by simpa using hmem)
    simp [hmf] at hnone

end Fragment

namespace ReassemblySession

open Fragment

theorem checkFragment_iff (f : Fragment) :
    checkFragment f = true ↔
      (f.moreFragments = true → f.len % 8 = 0) ∧ 0 < f.len ∧ f.offset % 8 = 0 ∧
        (f.offset = 0 → 8 ≤ f.len) := by
  have hlen : f.len &&& 7 = f.len % 8 := Nat.and_two_pow_sub_one_eq_mod f.len 3
  have hoff : f.offset &&& 7 = f.offset % 8 := Nat.and_two_pow_sub_one_eq_mod f.offset 3
  unfold checkFragment
  rw [hlen,hoff]
  cases f.moreFragments <;> simp <;> omega

theorem acceptable_aligned {f : Fragment} (h : f.Acceptable) : 8 ∣ f.offset :=
  Nat.dvd_of_mod_eq_zero ((checkFragment_iff f).mp h.1).2.2.1

/-- The loop of `add_fragment` visits the blocks the fragment meets. -/
theorem mem_blocks {f : Fragment} (h : f.Acceptable) (b : Nat) :
    b ∈ blocks f ↔ Touches 8 offset stop f b := by
  obtain ⟨_,hpos,halign,_⟩ := (checkFragment_iff f).mp h.1
  simp only [blocks,List.mem_range'_1,Nat.shiftRight_eq_div_pow,Touches,stop]
  omega

theorem blocks_nodup (f : Fragment) : (blocks f).Nodup := List.nodup_range'

theorem isBlockWritten_eq (bitmap : Nat → BitVec 64) (b : Nat) :
    isBlockWritten bitmap b = bitAt bitmap b := by
  have hshift : b >>> 6 = b / 64 := Nat.shiftRight_eq_div_pow b 6
  have hand : b &&& 63 = b % 64 := Nat.and_two_pow_sub_one_eq_mod b 6
  have hlt : b % 64 < 64 := Nat.mod_lt b (by decide)
  rw [Bool.eq_iff_iff]
  simp only [isBlockWritten,hshift,hand,decide_eq_true_eq,bitAt,and_ne_zero_iff,
    getLsbD_bitMask _ _ hlt]
  constructor
  · intro h
    obtain ⟨j,_,hw,rfl⟩ := h
    exact hw
  · intro h
    exact ⟨b % 64,hlt,h,rfl⟩

theorem bitAt_markBlockWritten (bitmap : Nat → BitVec 64) (b i : Nat) :
    bitAt (markBlockWritten bitmap b) i = (bitAt bitmap i || decide (i = b)) := by
  have hshift : b >>> 6 = b / 64 := Nat.shiftRight_eq_div_pow b 6
  have hand : b &&& 63 = b % 64 := Nat.and_two_pow_sub_one_eq_mod b 6
  have hlt : b % 64 < 64 := Nat.mod_lt b (by decide)
  rw [markBlockWritten,hshift,hand,bitAt_update,BitVec.getLsbD_or,getLsbD_bitMask _ _ hlt]
  by_cases hi : i = b
  · subst hi
    simp [bitAt]
  · have hne : i / 64 = b / 64 → i % 64 ≠ b % 64 := by omega
    split_ifs with hword
    · simp [bitAt,hi,hne hword,hword]
    · simp [hi]

/-- What visiting the blocks `bs` of fragment `f` does to a session. -/
structure Copied (f : Fragment) (bs : List Nat) (s t : ReassemblySession) : Prop where
  createdAtNs : t.createdAtNs = s.createdAtNs
  totalExpectedLen : t.totalExpectedLen = s.totalExpectedLen
  fragmentCount : t.fragmentCount = s.fragmentCount
  hasLastFragment : t.hasLastFragment = s.hasLastFragment
  bitmap : ∀ i, bitAt t.blockBitmap i = (bitAt s.blockBitmap i || decide (i ∈ bs))
  buffer : ∀ p, t.buffer p =
    if p / 8 ∈ bs ∧ bitAt s.blockBitmap (p / 8) = false ∧ p < f.stop then f.byteAt p
    else s.buffer p
  received : t.receivedBytes = s.receivedBytes +
    (bs.map fun b => if bitAt s.blockBitmap b then 0 else min 8 (f.stop - b * 8)).sum

theorem copied_nil (f : Fragment) (s : ReassemblySession) : Copied f [] s s := by
  constructor <;> simp

/-- A block that the fragment meets and that is not written yet. -/
theorem writeBlock_unwritten {f : Fragment} {s : ReassemblySession} {b : Nat}
    (hle : f.offset ≤ b * 8) (hw : bitAt s.blockBitmap b = false) :
    writeBlock f s b = { s with
      buffer := copyBytes s.buffer (b * 8) f.payload (b * 8 - f.offset) (min 8 (f.stop - b * 8))
      blockBitmap := markBlockWritten s.blockBitmap b
      receivedBytes := s.receivedBytes + min 8 (f.stop - b * 8) } := by
  have hshift : b <<< 3 = b * 8 := Nat.shiftLeft_eq b 3
  have hcopy : (if b * 8 - f.offset + 8 > f.len then f.len - (b * 8 - f.offset) else 8) =
      min 8 (f.stop - b * 8) := by
    unfold stop
    split_ifs <;> omega
  simp [writeBlock,isBlockWritten_eq,hw,hshift,hle,← hcopy]

/-- One block that the fragment meets. -/
theorem writeBlock_copied {f : Fragment} (h : f.Acceptable) (s : ReassemblySession) (b : Nat)
    (hb : b ∈ blocks f) : Copied f [b] s (writeBlock f s b) := by
  obtain ⟨_,_,halign,_⟩ := (checkFragment_iff f).mp h.1
  have ht := (mem_blocks h b).mp hb
  simp only [Touches,stop] at ht
  have hle : f.offset ≤ b * 8 := by omega
  cases hw : bitAt s.blockBitmap b with
  | true =>
    have hsame : writeBlock f s b = s := by simp [writeBlock,isBlockWritten_eq,hw]
    rw [hsame]
    constructor <;> try rfl
    · intro i
      by_cases hi : i = b
      · simp [hi,hw]
      · simp [hi]
    · intro p
      rw [if_neg]
      intro hc
      obtain ⟨hp,hf,_⟩ := hc
      rw [List.mem_singleton.mp hp,hw] at hf
      cases hf
    · simp [hw]
  | false =>
    rw [writeBlock_unwritten hle hw]
    constructor <;> try rfl
    · intro i
      rw [bitAt_markBlockWritten]
      simp
    · intro p
      simp only [copyBytes,byteAt,List.mem_singleton]
      by_cases hp : p / 8 = b ∧ p < f.stop
      · rw [if_pos (by omega),if_pos ⟨hp.1,by rw [hp.1]; exact hw,hp.2⟩]
        congr 1
        omega
      · rw [if_neg (by omega),if_neg fun hc => hp ⟨hc.1,hc.2.2⟩]
    · simp [hw]

theorem Copied.trans {f : Fragment} {b : Nat} {bs : List Nat} {s t u : ReassemblySession}
    (hnd : (b :: bs).Nodup) (h : Copied f [b] s t) (hs : Copied f bs t u) :
    Copied f (b :: bs) s u := by
  have hnot : b ∉ bs := (List.nodup_cons.mp hnd).1
  have hbit : ∀ i ∈ bs, bitAt t.blockBitmap i = bitAt s.blockBitmap i := by
    intro i hi
    have hne : i ≠ b := fun hib => hnot (hib ▸ hi)
    rw [h.bitmap]
    simp [hne]
  constructor
  · rw [hs.createdAtNs,h.createdAtNs]
  · rw [hs.totalExpectedLen,h.totalExpectedLen]
  · rw [hs.fragmentCount,h.fragmentCount]
  · rw [hs.hasLastFragment,h.hasLastFragment]
  · intro i
    rw [hs.bitmap,h.bitmap,Bool.or_assoc]
    congr 1
    simp
  · intro p
    rw [hs.buffer,h.buffer]
    by_cases hp : p / 8 ∈ bs
    · have hne : p / 8 ≠ b := fun hpb => hnot (hpb ▸ hp)
      simp [hp,hne,hbit _ hp]
    · simp [hp]
  · rw [hs.received,h.received,List.map_cons,List.sum_cons]
    have hcongr : (bs.map fun c => if bitAt t.blockBitmap c then 0 else min 8 (f.stop - c * 8)) =
        bs.map fun c => if bitAt s.blockBitmap c then 0 else min 8 (f.stop - c * 8) := by
      apply List.map_congr_left
      intro c hc
      rw [hbit c hc]
    rw [hcongr]
    simp only [List.map_cons,List.map_nil,List.sum_cons,List.sum_nil]
    omega

/-- The whole block loop. -/
theorem foldl_writeBlock {f : Fragment} (h : f.Acceptable) (bs : List Nat) (hnd : bs.Nodup)
    (hbs : ∀ b ∈ bs, b ∈ blocks f) (s : ReassemblySession) :
    Copied f bs s (bs.foldl (writeBlock f) s) := by
  induction bs generalizing s with
  | nil => exact copied_nil f s
  | cons b bs ih =>
    apply Copied.trans hnd (writeBlock_copied h s b (hbs b (by simp)))
    exact ih (List.nodup_cons.mp hnd).2 (fun c hc => hbs c (by simp [hc])) _

/-- The session holds exactly what the fragments of `log`, accepted in this order, wrote. -/
structure Built (s : ReassemblySession) (log : List Fragment) : Prop where
  acceptable : ∀ f ∈ log, f.Acceptable
  count : s.fragmentCount = log.length
  hasLast : s.hasLastFragment = (lastStop log).isSome
  total : s.totalExpectedLen = (lastStop log).getD 0
  bitmap : ∀ b, bitAt s.blockBitmap b = (blockOwner log b).isSome
  bytes : ∀ p f, blockOwner log (p / 8) = some f → p < f.stop → s.buffer p = f.byteAt p
  received : s.receivedBytes = ∑ b ∈ Finset.range 8192, written 8 offset stop log b

theorem built_new (now : BitVec 64) : Built { createdAtNs := now } [] := by
  constructor <;> simp [lastStop,blockOwner,owner,written,bitAt]

private theorem written_snoc (log : List Fragment) (f : Fragment) (b : Nat) :
    written 8 offset stop (log ++ [f]) b = written 8 offset stop log b +
      if Touches 8 offset stop f b then
        (if (blockOwner log b).isSome then 0 else min 8 (f.stop - b * 8)) else 0 := by
  cases ho : owner 8 offset stop log b with
  | some g =>
    rw [written_append_of_some ho]
    simp [blockOwner,ho]
  | none =>
    rw [written_append_of_none ho,written_of_none ho]
    by_cases ht : Touches 8 offset stop f b
    · simp [written,owner,ht,blockOwner] at ho ⊢
      intro g hg hgt
      exact absurd hgt (by simpa using ho g hg)
    · simp [written,owner,ht]

private theorem sum_blocks {f : Fragment} (h : f.Acceptable) (g : Nat → Nat) :
    ∑ b ∈ Finset.range 8192, (if Touches 8 offset stop f b then g b else 0) =
      ((blocks f).map g).sum := by
  rw [← List.sum_toFinset g (blocks_nodup f),← Finset.sum_filter]
  apply Finset.sum_congr _ (fun _ _ => rfl)
  apply Finset.ext
  intro b
  simp only [Finset.mem_filter,Finset.mem_range,List.mem_toFinset,mem_blocks h]
  constructor
  · intro hb
    exact hb.2
  · intro hb
    have := h.2
    simp only [Touches,stop,maxIpDatagramSize] at hb this
    exact ⟨by omega,hb⟩

/-- The fields of a session that a copy of blocks does not change, after the fragment was
counted and its end noted. -/
def counted (s : ReassemblySession) (f : Fragment) : ReassemblySession :=
  let s := { s with fragmentCount := s.fragmentCount + 1 }
  if f.moreFragments then s
  else { s with hasLastFragment := true, totalExpectedLen := f.offset + f.len }

theorem addFragment_accept {s : ReassemblySession} {f : Fragment} (h : f.Acceptable)
    (hc : s.fragmentCount < maxIpDatagramFragmentPerId) :
    s.addFragment f = (true,(blocks f).foldl (writeBlock f) (counted s f)) := by
  have hsize : ¬ f.offset + f.len > maxIpDatagramSize := not_lt.mpr h.2
  have hcount : ¬ s.fragmentCount + 1 > maxIpDatagramFragmentPerId := by omega
  simp [addFragment,h.1,hsize,hcount,counted]

theorem addFragment_fst (s : ReassemblySession) (f : Fragment) :
    (s.addFragment f).1 = true ↔
      f.Acceptable ∧ s.fragmentCount < maxIpDatagramFragmentPerId := by
  constructor
  · intro h
    simp only [addFragment,Bool.not_eq_true'] at h
    split_ifs at h with h1 h2 h3
    all_goals exact ⟨⟨by simpa using h1,by omega⟩,by omega⟩
  · intro h
    rw [addFragment_accept h.1 h.2]

theorem Built.addFragment {s : ReassemblySession} {log : List Fragment} {f : Fragment}
    (hb : Built s log) (h : (s.addFragment f).1 = true) :
    Built (s.addFragment f).2 (log ++ [f]) := by
  obtain ⟨ha,hc⟩ := (addFragment_fst s f).mp h
  rw [addFragment_accept ha hc]
  have hcopy := foldl_writeBlock ha (blocks f) (blocks_nodup f) (fun _ hb => hb) (counted s f)
  generalize (blocks f).foldl (writeBlock f) (counted s f) = t at hcopy
  have hbitmap : (counted s f).blockBitmap = s.blockBitmap := by
    unfold counted
    split_ifs <;> rfl
  have hbuffer : (counted s f).buffer = s.buffer := by
    unfold counted
    split_ifs <;> rfl
  have hreceived : (counted s f).receivedBytes = s.receivedBytes := by
    unfold counted
    split_ifs <;> rfl
  have hcount : (counted s f).fragmentCount = s.fragmentCount + 1 := by
    unfold counted
    split_ifs <;> rfl
  have howner : ∀ b, blockOwner (log ++ [f]) b =
      (blockOwner log b).or (if b ∈ blocks f then some f else none) := by
    intro b
    simp only [blockOwner,owner_append,mem_blocks ha]
    congr 1
    by_cases ht : Touches 8 offset stop f b <;> simp [owner,ht]
  constructor
  · intro g hg
    rcases List.mem_append.mp hg with hg | hg
    · exact hb.acceptable g hg
    · rw [List.mem_singleton.mp hg]
      exact ha
  · rw [hcopy.fragmentCount,hcount,hb.count]
    simp
  · rw [hcopy.hasLastFragment,lastStop_append]
    unfold counted
    split_ifs
    · exact hb.hasLast
    · rfl
  · rw [hcopy.totalExpectedLen,lastStop_append]
    unfold counted
    split_ifs
    · exact hb.total
    · rfl
  · intro b
    rw [hcopy.bitmap,hbitmap,hb.bitmap,howner]
    by_cases hbf : b ∈ blocks f <;> simp [hbf]
  · intro p g hg hp
    rw [hcopy.buffer,hbitmap,hb.bitmap,hbuffer]
    rw [howner] at hg
    cases ho : blockOwner log (p / 8) with
    | some g' =>
      rw [ho] at hg
      simp only [Option.some_or,Option.some.injEq] at hg
      subst hg
      simpa using hb.bytes p g' ho hp
    | none =>
      rw [ho,Option.none_or] at hg
      split_ifs at hg with hbf
      cases hg
      simp [hbf,hp]
  · rw [hcopy.received,hreceived,hb.received,hbitmap]
    simp only [written_snoc,hb.bitmap,Finset.sum_add_distrib]
    rw [sum_blocks ha]

theorem Built.isComplete_iff {s : ReassemblySession} {log : List Fragment} (hb : Built s log) :
    s.isComplete = true ↔ ∃ T, lastStop log = some T ∧
      T ≤ ∑ b ∈ Finset.range 8192, written 8 offset stop log b := by
  simp only [isComplete,hb.hasLast,hb.total,hb.received,Bool.and_eq_true,decide_eq_true_eq]
  cases lastStop log with
  | none => simp
  | some T => simp

theorem Built.total_eq {s : ReassemblySession} {log : List Fragment} (hb : Built s log)
    (hc : s.isComplete = true) : lastStop log = some s.totalExpectedLen := by
  obtain ⟨T,hT,_⟩ := hb.isComplete_iff.mp hc
  rw [hb.total,hT]
  rfl

/-- A complete session has an expected length that holds a UDP header. -/
theorem Built.total_bounds {s : ReassemblySession} {log : List Fragment} (hb : Built s log)
    (hc : s.isComplete = true) : 8 ≤ s.totalExpectedLen ∧ s.totalExpectedLen ≤ 65535 := by
  obtain ⟨f,hmem,_,hstop⟩ := lastStop_mem (hb.total_eq hc)
  have ha := hb.acceptable f hmem
  obtain ⟨_,_,halign,hfirst⟩ := (checkFragment_iff f).mp ha.1
  have hmax := ha.2
  unfold stop at hstop
  unfold maxIpDatagramSize at hmax
  omega

theorem Built.complete_full {s : ReassemblySession} {log : List Fragment} (hb : Built s log)
    (hc : s.isComplete = true) (hend : ∀ f ∈ log, f.stop ≤ s.totalExpectedLen) (b : Nat)
    (hlt : b < 8192) :
    written 8 offset stop log b = min 8 (s.totalExpectedLen - b * 8) := by
  obtain ⟨T,hT,hsum⟩ := hb.isComplete_iff.mp hc
  have htotal := hb.total_eq hc
  have hbound := (hb.total_bounds hc).2
  rw [hT] at htotal
  cases htotal
  exact written_full (by omega) hend hsum b hlt

/-- A complete session none of whose fragments ends beyond the expected length holds at
every position the byte of the first accepted fragment that covers it. -/
theorem Built.complete_sound {s : ReassemblySession} {log : List Fragment} (hb : Built s log)
    (hc : s.isComplete = true) (hend : ∀ f ∈ log, f.stop ≤ s.totalExpectedLen) (p : Nat)
    (hp : p < s.totalExpectedLen) :
    ∃ f, firstCover log p = some f ∧ s.buffer p = f.byteAt p := by
  have hbound := (hb.total_bounds hc).2
  have hfull := hb.complete_full hc hend (p / 8) (by omega)
  obtain ⟨f,ho,hcov⟩ := coverer_eq_owner (fun f hf => acceptable_aligned (hb.acceptable f hf))
    (by decide : 0 < 8) (p := p) (by rw [hfull]; omega)
  refine ⟨f,hcov,hb.bytes p f ho ?_⟩
  have hcover := List.find?_some hcov
  simp only [decide_eq_true_eq] at hcover
  exact hcover.2

end ReassemblySession

end Aethon
