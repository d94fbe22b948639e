import Aethon.Net.PacketInjector

/-!
# Checksums of emitted and received headers

The routines that compute a checksum add big-endian 16-bit words, and the validator adds
little-endian 32-bit words. Both amount to the one's complement sum of the bytes.
-/

namespace Aethon.Net

open Framework

section Compute

theorem addWords_eq (sum : Nat) (bytes : List UInt8) (h : sum + (words bytes).sum < 2 ^ 32) :
    addWords sum bytes = sum + (words bytes).sum := by
  induction bytes using words.induct generalizing sum with
  | case1 hi lo bytes ih =>
    simp only [words,List.sum_cons] at h ⊢
    have hlt : sum + (hi.toNat * 256 + lo.toNat) < 2 ^ 32 := Nat.lt_of_le_of_lt (by omega) h
    rw [addWords,Nat.mod_eq_of_lt hlt,ih _ (by omega),Nat.add_assoc]
  | case2 hi =>
    simp only [words,List.sum_cons,List.sum_nil,Nat.add_zero] at h ⊢
    rw [addWords,Nat.mod_eq_of_lt h]
  | case3 => rfl

theorem complement_eq {sum : Nat} : complement sum = 65535 - residue sum := by
  have hlt := residue_lt sum
  rw [complement,foldCarries_eq le_rfl]
  omega

theorem complement_lt (sum : Nat) : complement sum < 65536 := Nat.mod_lt _ (by decide)

theorem words_beBytes {n : Nat} (h : n < 65536) : words (beBytes 2 n) = [n] := by
  have hhi : (UInt8.ofNat (n / 256 % 256)).toNat = n / 256 % 256 :=
    UInt8.toNat_ofNat_of_lt (Nat.mod_lt _ (by decide))
  have hlo : (UInt8.ofNat (n % 256)).toNat = n % 256 :=
    UInt8.toNat_ofNat_of_lt (Nat.mod_lt _ (by decide))
  change [(UInt8.ofNat (n / 256 % 256)).toNat * 256 + (UInt8.ofNat (n % 256)).toNat] = [n]
  rw [hhi,hlo]
  congr 1
  omega

/-- With the checksum in its field the words add up to 65535. -/
theorem onesSum_checked {front middle back : List UInt8} {check : Nat}
    (hfront : front.length % 2 = 0) (hmiddle : middle.length % 2 = 0)
    (hlen : (front ++ (middle ++ ([0,0] ++ back))).length < 131000)
    (hcheck : check = complement (addWords (addWords 0 front) (middle ++ ([0,0] ++ back)))) :
    onesSum (front ++ (middle ++ (beBytes 2 check ++ back))) = 65535 := by
  have hsum : (words front).sum + (words (middle ++ ([0,0] ++ back))).sum ≤
      65535 * 65501 := by
    have hle := words_sum_le (front ++ (middle ++ ([0,0] ++ back)))
    rw [words_append hfront,List.sum_append] at hle
    omega
  have hadd : addWords (addWords 0 front) (middle ++ ([0,0] ++ back)) =
      (words front).sum + (words (middle ++ ([0,0] ++ back))).sum := by
    rw [addWords_eq 0 front (by omega),Nat.zero_add,addWords_eq _ _ (by omega)]
  have hfield : (words (middle ++ ([0,0] ++ back))).sum = (words middle).sum + (words back).sum := by
    rw [words_append hmiddle,List.sum_append]
    simp [words]
  have hlt : check < 65536 := by
    rw [hcheck]
    exact complement_lt _
  have hall : (words (front ++ (middle ++ (beBytes 2 check ++ back)))).sum =
      (words front).sum + ((words middle).sum + (words back).sum) + check := by
    rw [words_append hfront,words_append hmiddle,words_append (by simp),words_beBytes hlt]
    simp only [List.sum_append,List.sum_cons,List.sum_nil]
    omega
  rw [onesSum_eq,hall,hcheck,complement_eq,hadd,hfield,residue_add_complement]

/-- A checksum field that is cleared and then filled makes the words add up to 65535. -/
theorem onesSum_filled (pkt : Nat → UInt8) {start n dst : Nat} (hdst : start ≤ dst)
    (hend : dst + 2 ≤ start + n)
    (heven : (dst - start) % 2 = 0) (hmax : n < 65536) :
    onesSum (readBytes (storeBytes (storeBytes pkt dst [0,0]) dst (beBytes 2 (getChecksum
      (readBytes (storeBytes pkt dst [0,0]) start n)))) start n) = 65535 := by
  have hlen : (readBytes pkt start n).length = n := readBytes_length ..
  have htake : ((readBytes pkt start n).take (dst - start)).length = dst - start := by
    rw [List.length_take,hlen]
    omega
  have hzero := readBytes_store_around pkt [0,0] hdst (by simpa using hend)
  rw [readBytes_store_around _ _ hdst (by simpa using hend),beBytes_length,hzero]
  generalize readBytes pkt start n = bytes at hlen htake
  rw [List.take_left' htake,← List.drop_drop (i := 2),List.drop_left' htake]
  have hcheck : getChecksum (bytes.take (dst - start) ++ ([0,0] ++ bytes.drop (dst - start + 2))) =
      complement (addWords (addWords 0 []) (bytes.take (dst - start) ++
        ([0,0] ++ bytes.drop (dst - start + 2)))) := rfl
  have h := onesSum_checked rfl (by rw [htake]; exact heven) (by simp [hlen]; omega) hcheck
  exact h

end Compute

section Validate

theorem leNat_append (bytes bytes' : List UInt8) :
    leNat (bytes ++ bytes') = leNat bytes + 256 ^ bytes.length * leNat bytes' := by
  induction bytes with
  | nil => simp [leNat]
  | cons b bytes ih =>
    rw [List.cons_append,leNat,leNat,ih,List.length_cons,pow_succ]
    ring

theorem addFours_eq (word : Nat → Nat) (n k acc : Nat) :
    addFours word n k acc = addRest word n k acc := by
  fun_induction addFours word n k acc with
  | case1 k acc n ih => exact ih
  | case2 n k acc hn => rfl

/-- The 32-bit words of the header, added one by one. -/
def wordSum (pkt : Nat → UInt8) (start n k acc : Nat) : Nat :=
  addRest (fun k => leNat (readBytes pkt (start + 4 * k) 4)) n k acc

variable (pkt : Nat → UInt8) (start : Nat)

theorem leNat_four (i : Nat) : leNat (readBytes pkt i 4) < 2 ^ 32 := by
  have h := leNat_lt (readBytes pkt i 4)
  rw [readBytes_length] at h
  omega

theorem wordSum_le (n k acc : Nat) : wordSum pkt start n k acc ≤ acc + n * (2 ^ 32 - 1) := by
  unfold wordSum
  induction n generalizing k acc with
  | zero => simp [addRest]
  | succ n ih =>
    have hword := leNat_four pkt (start + 4 * k)
    have hrest := ih (k + 1) (acc + leNat (readBytes pkt (start + 4 * k) 4))
    rw [addRest]
    omega

/-- The sum of the 32-bit words agrees with 256 times that of the 16-bit words modulo 65535, and
both are zero together. -/
theorem wordSum_words (n k acc : Nat) :
    wordSum pkt start n k acc % 65535 =
        (acc + 256 * (words (readBytes pkt (start + 4 * k) (4 * n))).sum) % 65535 ∧
      (wordSum pkt start n k acc = 0 ↔
        acc = 0 ∧ (words (readBytes pkt (start + 4 * k) (4 * n))).sum = 0) := by
  unfold wordSum
  induction n generalizing k acc with
  | zero => simp [addRest,readBytes,words]
  | succ n ih =>
    obtain ⟨hmod,hzero⟩ := ih (k + 1) (acc + leNat (readBytes pkt (start + 4 * k) 4))
    have heven : (readBytes pkt (start + 4 * k) 4).length % 2 = 0 := by simp
    have hhead := leNat_mod heven
    have hheadZero := leNat_eq_zero heven
    have hsplit : (words (readBytes pkt (start + 4 * k) (4 * (n + 1)))).sum =
        (words (readBytes pkt (start + 4 * k) 4)).sum +
          (words (readBytes pkt (start + 4 * (k + 1)) (4 * n))).sum := by
      rw [show 4 * (n + 1) = 4 + 4 * n by omega,readBytes_add,words_append heven,List.sum_append,
        show start + 4 * k + 4 = start + 4 * (k + 1) by omega]
    rw [addRest,hsplit]
    refine ⟨by omega,?_⟩
    rw [hzero]
    omega

theorem headerSum_eq : headerSum pkt = wordSum pkt 14 (ihl pkt) 0 0 := by
  unfold headerSum
  split_ifs with h
  · have height : ∀ i, leNat (readBytes pkt i 8) =
        leNat (readBytes pkt i 4) + 2 ^ 32 * leNat (readBytes pkt (i + 4) 4) := by
      intro i
      rw [show 8 = 4 + 4 from rfl,readBytes_add,leNat_append,readBytes_length]
      norm_num
    have hlow : ∀ x, x &&& 0xFFFFFFFF = x % 2 ^ 32 := fun x => Nat.and_two_pow_sub_one_eq_mod x 32
    have hhigh : ∀ x, x >>> 32 = x / 2 ^ 32 := fun x => Nat.shiftRight_eq_div_pow x 32
    have h0 := leNat_four pkt 14
    have h1 := leNat_four pkt 22
    simp only [hlow,hhigh,height,h,wordSum,addRest,Nat.mul_zero,Nat.zero_add,Nat.reduceAdd,
      Nat.reduceMul]
    omega
  · exact addFours_eq ..

/-- One folding of the validator. -/
theorem foldHalves {n x : Nat} (hn : n = 16 ∨ n = 32) :
    (x % 2 ^ n + x / 2 ^ n) % 65535 = x % 65535 ∧ (x % 2 ^ n + x / 2 ^ n = 0 ↔ x = 0) := by
  rcases hn with rfl | rfl
  · omega
  · omega

theorem validator_folds {acc : Nat} (h : acc ≤ 15 * (2 ^ 32 - 1)) :
    (let acc := (acc &&& 0xFFFFFFFF) + (acc >>> 32)
     let acc := (acc &&& 0xFFFFFFFF) + (acc >>> 32)
     let acc := (acc &&& 0xFFFF) + (acc >>> 16)
     let acc := (acc &&& 0xFFFF) + (acc >>> 16)
     acc % 2 ^ 16) = residue acc := by
  have hlow : ∀ x, x &&& 0xFFFFFFFF = x % 2 ^ 32 := fun x => Nat.and_two_pow_sub_one_eq_mod x 32
  have hhigh : ∀ x, x >>> 32 = x / 2 ^ 32 := fun x => Nat.shiftRight_eq_div_pow x 32
  have hlow' : ∀ x, x &&& 0xFFFF = x % 2 ^ 16 := fun x => Nat.and_two_pow_sub_one_eq_mod x 16
  have hhigh' : ∀ x, x >>> 16 = x / 2 ^ 16 := fun x => Nat.shiftRight_eq_div_pow x 16
  simp only [hlow,hhigh,hlow',hhigh']
  obtain ⟨ha,ha'⟩ := foldHalves (x := acc) (Or.inr rfl)
  generalize hacc : acc % 2 ^ 32 + acc / 2 ^ 32 = a at ha ha' ⊢
  have hbound : a < 2 ^ 32 + 15 := by omega
  clear hacc
  obtain ⟨hb,hb'⟩ := foldHalves (x := a) (Or.inr rfl)
  generalize hacc : a % 2 ^ 32 + a / 2 ^ 32 = b at hb hb' ⊢
  have hbound' : b < 2 ^ 32 := by omega
  clear hacc
  obtain ⟨hc,hc'⟩ := foldHalves (x := b) (Or.inl rfl)
  generalize hacc : b % 2 ^ 16 + b / 2 ^ 16 = c at hc hc' ⊢
  have hbound'' : c < 2 ^ 17 - 1 := by omega
  clear hacc
  obtain ⟨hd,hd'⟩ := foldHalves (x := c) (Or.inl rfl)
  generalize hacc : c % 2 ^ 16 + c / 2 ^ 16 = d at hd hd' ⊢
  have hlt : d < 2 ^ 16 := by omega
  rw [Nat.mod_eq_of_lt hlt]
  exact residue_unique hlt (by rw [hd,hc,hb,ha]) (by rw [hd',hc',hb',ha'])

/-- The validator accepts the headers whose words add up to 65535. -/
theorem isValidIpv4Checksum_iff :
    isValidIpv4Checksum pkt = true ↔
      5 ≤ ihl pkt ∧ onesSum (readBytes pkt 14 (4 * ihl pkt)) = 65535 := by
  have hihl : ihl pkt ≤ 15 := by
    have := Nat.mod_lt (pkt 14).toNat (show 16 > 0 by decide)
    unfold ihl
    omega
  unfold isValidIpv4Checksum
  split_ifs with h
  · constructor
    · nofun
    · omega
  · have hle : headerSum pkt ≤ 15 * (2 ^ 32 - 1) := by
      have := wordSum_le pkt 14 (ihl pkt) 0 0
      rw [headerSum_eq]
      omega
    obtain ⟨hmod,hzero⟩ := wordSum_words pkt 14 (ihl pkt) 0 0
    rw [← headerSum_eq] at hmod hzero
    rw [decide_eq_true_iff,validator_folds hle,onesSum_eq,residue_eq_max,residue_eq_max]
    rw [Nat.mul_zero,Nat.add_zero,Nat.zero_add] at hmod
    rw [Nat.mul_zero,Nat.add_zero] at hzero
    constructor
    · rintro ⟨hpos,hdvd⟩
      refine ⟨by omega,by omega,?_⟩
      omega
    · rintro ⟨_,hpos,hdvd⟩
      refine ⟨by omega,by omega⟩

theorem ihl_store_check (check : List UInt8) : ihl (storeBytes pkt 24 check) = ihl pkt := by
  simp [ihl,storeBytes,copyBytes]

theorem storeBytes_zero_check (h : readBytes pkt 24 2 = [0,0]) : storeBytes pkt 24 [0,0] = pkt := by
  obtain ⟨hhi,hlo⟩ : pkt 24 = 0 ∧ pkt 25 = 0 := by simpa [readBytes,List.range_succ] using h
  funext i
  by_cases hi : i = 24 ∨ i = 25
  · rcases hi with rfl | rfl
    · exact hhi.symm
    · exact hlo.symm
  · rw [storeBytes,copyBytes,if_neg (by simp only [List.length_cons,List.length_nil]; omega)]

/-- The validator is the check of RFC 1071, and the computed checksum passes it. -/
theorem ipv4_checksum_law (hihl : 5 ≤ ihl pkt) :
    (isValidIpv4Checksum pkt = true ↔ onesSum (readBytes pkt 14 (4 * ihl pkt)) = 0xFFFF) ∧
      (readBytes pkt 24 2 = [0,0] →
        isValidIpv4Checksum (storeBytes pkt 24 (beBytes 2 (ipv4ComputeChecksum
          (readBytes pkt 14 (4 * ihl pkt))))) = true) := by
  refine ⟨?_,fun hzero => ?_⟩
  · rw [isValidIpv4Checksum_iff]
    exact and_iff_right hihl
  · have hlt : ihl pkt < 16 := Nat.mod_lt _ (by decide)
    have hfilled := @onesSum_filled pkt 14 (4 * ihl pkt) 24 (by decide) (by omega) (by decide)
      (by omega)
    rw [storeBytes_zero_check pkt hzero] at hfilled
    rw [isValidIpv4Checksum_iff,ihl_store_check]
    exact ⟨hihl,hfilled⟩

/-- A header of six words with a zero checksum field. -/
def optionHeader : List UInt8 :=
  [0x46,0,0,0x28,0x12,0x34,0x40,0,0x40,6,0,0,10,0,0,1,10,0,0,2,1,1,1,0]

theorem ipv4_checksum_law_option :
    isValidIpv4Checksum (storeBytes (storeBytes (fun _ => 0) 14 optionHeader) 24 (beBytes 2
      (ipv4ComputeChecksum (readBytes (storeBytes (fun _ => 0) 14 optionHeader) 14 24)))) = true :=
  (ipv4_checksum_law (storeBytes (fun _ => 0) 14 optionHeader) (by decide +kernel)).2
    (by decide +kernel)

end Validate

end Aethon.Net
