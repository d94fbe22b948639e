import Aethon.Tls.ClientHello
import Aethon.Transport.TcpSession

/-!
# The options of a SYN

`parse_tcp_syn_option` on the bytes of a TCP header, with every read checked against the end of
the header, and the decoding it is meant to compute: walk the options as kind, length and value,
then take the last maximum segment size, the last window scale and whether selective
acknowledgements are permitted.
-/

namespace Aethon

open Framework Tls

def tcpoptEol : UInt8 := 0
def tcpoptNop : UInt8 := 1
def tcpoptMaxseg : UInt8 := 2
def tcpoptWindow : UInt8 := 3
def tcpoptSackPermitted : UInt8 := 4
def tcpolenMaxseg : UInt8 := 4
def tcpolenWindow : UInt8 := 3
def tcpolenSackPermitted : UInt8 := 2

def sizeofTcphdr : Nat := 20

/-- The data offset, the high half of byte 12 of a TCP header. -/
def doffOf (bytes : List UInt8) : Nat := (bytes.getD 12 0).toNat / 16

/-- The bytes of a TCP header, as many as its data offset says. -/
structure TcpHeader where
  bytes : List UInt8
  doff_ge : 5 ≤ doffOf bytes
  length_eq : bytes.length = doffOf bytes * 4

/-- The `switch` on the kind of the option at `opt`. -/
def readTcpOption (bytes : List UInt8) (opt : Nat) (kind len : UInt8)
    (params : TcpNegotiatedParams) : Checked TcpNegotiatedParams :=
  if kind = tcpoptMaxseg then
    if len = tcpolenMaxseg then do
      let mss ← readU16Be bytes (opt + 2)
      return { params with mss := mss }
    else .ok params
  else if kind = tcpoptWindow then
    if len = tcpolenWindow then do
      let wscale ← byteAt bytes (opt + 2)
      return { params with wscale := if wscale.toNat > 14 then 14 else wscale.toNat }
    else .ok params
  else if kind = tcpoptSackPermitted then
    if len = tcpolenSackPermitted then .ok { params with sackPermitted := true }
    else .ok params
  else .ok params

/-- The option loop between the positions `opt` and `stop` of the header. -/
def readTcpOptions (bytes : List UInt8) (stop : Nat) :
    Nat → Nat → TcpNegotiatedParams → Checked TcpNegotiatedParams
  | 0, _, _ => .error .outOfFuel
  | fuel + 1, opt, params =>
      if opt < stop then do
        let kind ← byteAt bytes opt
        if kind = tcpoptEol then return params
        else if kind = tcpoptNop then readTcpOptions bytes stop fuel (opt + 1) params
        else if opt + 1 ≥ stop then return params
        else
          let len ← byteAt bytes (opt + 1)
          if len.toNat < 2 ∨ opt + len.toNat > stop then return params
          else
            let params ← readTcpOption bytes opt kind len params
            readTcpOptions bytes stop fuel (opt + len.toNat) params
      else .ok params

namespace TcpHeader

def doff (hdr : TcpHeader) : Nat := doffOf hdr.bytes

/-- The bytes after the fixed part. -/
def options (hdr : TcpHeader) : List UInt8 := hdr.bytes.drop sizeofTcphdr

/-- `parse_tcp_syn_option`; every round of its loop moves `opt` forward. -/
def parseTcpSynOption (hdr : TcpHeader) (outParams : TcpNegotiatedParams) :
    Checked TcpNegotiatedParams :=
  let tcpHdrLen := hdr.doff * 4
  if tcpHdrLen ≤ sizeofTcphdr then .ok outParams
  else
    readTcpOptions hdr.bytes tcpHdrLen (tcpHdrLen - sizeofTcphdr + 1) sizeofTcphdr outParams

end TcpHeader

/-- An option with a length: its kind and the bytes after its length byte. -/
structure TcpOption where
  kind : UInt8
  value : List UInt8

/-- The options that the walk over some bytes meets before it ends or stops. -/
inductive OptionWalk : List UInt8 → List TcpOption → Prop
  | finished : OptionWalk [] []
  | eol (rest : List UInt8) : OptionWalk (0 :: rest) []
  | nop {rest : List UInt8} {os : List TcpOption} (h : OptionWalk rest os) :
      OptionWalk (1 :: rest) os
  | noLength {kind : UInt8} (h0 : kind ≠ 0) (h1 : kind ≠ 1) : OptionWalk [kind] []
  | badLength {kind len : UInt8} {rest : List UInt8} (h0 : kind ≠ 0) (h1 : kind ≠ 1)
      (hlen : len.toNat < 2 ∨ rest.length + 2 < len.toNat) : OptionWalk (kind :: len :: rest) []
  | option {kind len : UInt8} {value rest : List UInt8} {os : List TcpOption} (h0 : kind ≠ 0)
      (h1 : kind ≠ 1) (hlen : len.toNat = value.length + 2) (h : OptionWalk rest os) :
      OptionWalk (kind :: len :: (value ++ rest)) (⟨kind,value⟩ :: os)

namespace TcpOption

/-- The maximum segment size of an option of kind 2 and length 4. -/
def mss? : TcpOption → Option Nat
  | ⟨kind,[hi,lo]⟩ => if kind = 2 then some (hi.toNat * 256 + lo.toNat) else none
  | _ => none

/-- The window scale of an option of kind 3 and length 3, at most 14. -/
def wscale? : TcpOption → Option Nat
  | ⟨kind,[shift]⟩ => if kind = 3 then some (min shift.toNat 14) else none
  | _ => none

/-- An option of kind 4 and length 2. -/
def permitsSack (o : TcpOption) : Bool := o.kind == 4 && o.value.isEmpty

end TcpOption

/-- The parameters that a list of options announces, on top of `init`. -/
def decodeOptions (os : List TcpOption) (init : TcpNegotiatedParams) : TcpNegotiatedParams where
  mss := (os.filterMap TcpOption.mss?).getLast?.getD init.mss
  wscale := (os.filterMap TcpOption.wscale?).getLast?.getD init.wscale
  sackPermitted := init.sackPermitted || os.any TcpOption.permitsSack

theorem OptionWalk.unique {bytes : List UInt8} {os os' : List TcpOption}
    (h : OptionWalk bytes os) (h' : OptionWalk bytes os') : os = os' := by
  induction h generalizing os' with
  | finished =>
    cases h'
    rfl
  | eol rest => cases h' <;> first | rfl | contradiction
  | nop h ih =>
    cases h' with
    | nop h' => exact ih h'
    | noLength _ h1 => contradiction
    | badLength _ h1 _ => contradiction
    | option _ h1 _ _ => contradiction
  | noLength h0 h1 => cases h' <;> first | rfl | contradiction
  | badLength h0 h1 hlen =>
    cases h' with
    | eol => contradiction
    | nop _ => contradiction
    | badLength _ _ _ => rfl
    | option _ _ hlen' _ =>
      simp only [List.length_append] at hlen
      omega
  | @option kind len value rest os h0 h1 hlen h ih =>
    generalize hrest : value ++ rest = tail at h'
    cases h' with
    | eol => contradiction
    | nop _ => contradiction
    | badLength _ _ hlen' =>
      rw [← hrest,List.length_append] at hlen'
      omega
    | option _ _ hlen' h' =>
      obtain ⟨rfl,rfl⟩ := List.append_inj hrest (by omega)
      rw [ih h']

@[simp] theorem decodeOptions_nil (init : TcpNegotiatedParams) : decodeOptions [] init = init := by
  simp [decodeOptions]

theorem decodeOptions_cons (o : TcpOption) (os : List TcpOption) (init : TcpNegotiatedParams) :
    decodeOptions (o :: os) init = decodeOptions os (decodeOptions [o] init) := by
  have hlast : ∀ (f : TcpOption → Option Nat) (d : Nat),
      ((o :: os).filterMap f).getLast?.getD d =
        (os.filterMap f).getLast?.getD (([o].filterMap f).getLast?.getD d) := by
    intro f d
    cases hf : f o with
    | none => simp [hf]
    | some x => simp [hf,List.getLast?_cons]
  simp only [decodeOptions,hlast,List.any_cons,List.any_nil,Bool.or_false,Bool.or_assoc]

theorem byteAt_drop (bytes : List UInt8) (opt i : Nat) :
    byteAt bytes (opt + i) = byteAt (bytes.drop opt) i := by
  simp [byteAt,List.getElem?_drop]

theorem decodeOptions_singleton (o : TcpOption) (init : TcpNegotiatedParams) :
    decodeOptions [o] init = ⟨o.mss?.getD init.mss,o.wscale?.getD init.wscale,
      init.sackPermitted || o.permitsSack⟩ := by
  cases hm : o.mss? <;> cases hw : o.wscale? <;> simp [decodeOptions,hm,hw]

namespace TcpOption

theorem mss?_eq_none {kind : UInt8} {value : List UInt8} (h : kind = 2 → value.length ≠ 2) :
    mss? ⟨kind,value⟩ = none := by
  unfold mss?
  split
  · next hi lo heq =>
    cases heq
    rw [if_neg fun hkind => h hkind rfl]
  · rfl

theorem wscale?_eq_none {kind : UInt8} {value : List UInt8} (h : kind = 3 → value.length ≠ 1) :
    wscale? ⟨kind,value⟩ = none := by
  unfold wscale?
  split
  · next shift heq =>
    cases heq
    rw [if_neg fun hkind => h hkind rfl]
  · rfl

theorem permitsSack_eq_false {kind : UInt8} {value : List UInt8}
    (h : kind = 4 → value.length ≠ 0) : permitsSack ⟨kind,value⟩ = false := by
  rw [permitsSack,Bool.and_eq_false_iff]
  by_cases hkind : kind = 4
  · right
    simpa using h hkind
  · left
    simpa using hkind

end TcpOption

/-- The `switch` as a chain of comparisons. -/
theorem applyTcpOption_eq_ite (params : TcpNegotiatedParams) (kind len : Nat)
    (value : List UInt8) :
    applyTcpOption params kind len value =
      if kind = 2 then
        if len = 4 then
          { params with mss := (value.getD 0 0).toNat * 256 + (value.getD 1 0).toNat }
        else params
      else if kind = 3 then
        if len = 3 then { params with wscale := min (value.getD 0 0).toNat 14 } else params
      else if kind = 4 then if len = 2 then { params with sackPermitted := true } else params
      else params := by
  unfold applyTcpOption
  split <;> simp_all

/-- One option of the list decodes to its own parameters. -/
theorem applyTcpOption_decode (params : TcpNegotiatedParams) (kind : UInt8)
    (value rest : List UInt8) :
    applyTcpOption params kind.toNat (value.length + 2) (value ++ rest) =
      decodeOptions [⟨kind,value⟩] params := by
  have hkind : ∀ k : UInt8, kind.toNat = k.toNat ↔ kind = k := fun k => UInt8.toNat_inj
  rw [applyTcpOption_eq_ite,decodeOptions_singleton]
  split_ifs with h2 hlen h3 hlen h4 hlen
  · obtain rfl := (hkind 2).mp h2
    obtain ⟨hi,lo,rfl⟩ := List.length_eq_two.mp (Nat.add_right_cancel hlen)
    simp [TcpOption.mss?,TcpOption.wscale?,TcpOption.permitsSack]
  · obtain rfl := (hkind 2).mp h2
    rw [TcpOption.mss?_eq_none fun _ h => hlen (by rw [h]),TcpOption.wscale?_eq_none (by simp),
      TcpOption.permitsSack_eq_false (by simp)]
    simp
  · obtain rfl := (hkind 3).mp h3
    obtain ⟨shift,rfl⟩ := List.length_eq_one_iff.mp (Nat.add_right_cancel hlen)
    simp [TcpOption.mss?,TcpOption.wscale?,TcpOption.permitsSack]
  · obtain rfl := (hkind 3).mp h3
    rw [TcpOption.mss?_eq_none (by simp),TcpOption.wscale?_eq_none fun _ h => hlen (by rw [h]),
      TcpOption.permitsSack_eq_false (by simp)]
    simp
  · obtain rfl := (hkind 4).mp h4
    obtain rfl := List.length_eq_zero_iff.mp (Nat.add_right_cancel hlen)
    simp [TcpOption.mss?,TcpOption.wscale?,TcpOption.permitsSack]
  · obtain rfl := (hkind 4).mp h4
    rw [TcpOption.mss?_eq_none (by simp),TcpOption.wscale?_eq_none (by simp),
      TcpOption.permitsSack_eq_false fun _ h => hlen (by rw [h])]
    simp
  · rw [TcpOption.mss?_eq_none fun h => absurd ((hkind 2).mpr h) h2,
      TcpOption.wscale?_eq_none fun h => absurd ((hkind 3).mpr h) h3,
      TcpOption.permitsSack_eq_false fun h => absurd ((hkind 4).mpr h) h4]
    simp

/-- The checked reads of an option that lies inside the header. -/
theorem readTcpOption_eq {bytes value rest : List UInt8} {opt : Nat} {kind len : UInt8}
    (hdrop : bytes.drop opt = kind :: len :: (value ++ rest))
    (hlen : len.toNat = value.length + 2) (params : TcpNegotiatedParams) :
    readTcpOption bytes opt kind len params = .ok (decodeOptions [⟨kind,value⟩] params) := by
  have hbyte : ∀ i < value.length, byteAt bytes (opt + (i + 2)) = .ok (value.getD i 0) := by
    intro i hi
    rw [byteAt_drop,hdrop]
    simp [byteAt,List.getElem?_append_left hi,List.getElem?_eq_getElem hi]
  have hkind : ∀ k : UInt8, kind.toNat = k.toNat ↔ kind = k := fun k => UInt8.toNat_inj
  have hlength : ∀ n : UInt8, value.length + 2 = n.toNat ↔ len = n := by
    intro n
    rw [← hlen,UInt8.toNat_inj]
  have hkinds : (kind.toNat = 2 ↔ kind = tcpoptMaxseg) ∧ (kind.toNat = 3 ↔ kind = tcpoptWindow) ∧
      (kind.toNat = 4 ↔ kind = tcpoptSackPermitted) := ⟨hkind 2,hkind 3,hkind 4⟩
  have hlengths : (value.length + 2 = 4 ↔ len = tcpolenMaxseg) ∧
      (value.length + 2 = 3 ↔ len = tcpolenWindow) ∧
      (value.length + 2 = 2 ↔ len = tcpolenSackPermitted) := ⟨hlength 4,hlength 3,hlength 2⟩
  have hcap : ∀ w : Nat, (if w > 14 then 14 else w) = min w 14 := by
    intro w
    split_ifs <;> omega
  have hget : ∀ i < value.length, (value ++ rest).getD i 0 = value.getD i 0 := by
    intro i hi
    simp [List.getElem?_append_left hi]
  rw [← applyTcpOption_decode params kind value rest,applyTcpOption_eq_ite]
  unfold readTcpOption
  simp only [hkinds,hlengths]
  split_ifs with hmss hfour hscale hthree hsack htwo
  · have hvalue : value.length = 2 := Nat.add_right_cancel (hlengths.1.mpr hfour)
    rw [readU16Be,hbyte 0 (by omega),hbyte 1 (by omega),hget 0 (by omega),hget 1 (by omega)]
    rfl
  · rfl
  · have hvalue : value.length = 1 := Nat.add_right_cancel (hlengths.2.1.mpr hthree)
    rw [hbyte 0 (by omega),hget 0 (by omega),← hcap]
    rfl
  all_goals rfl

/-- From any position of the header on, the loop comes to its end with the decoding of what it
walks over. -/
theorem readTcpOptions_walk (bytes : List UInt8) (fuel opt : Nat) (params : TcpNegotiatedParams)
    (hopt : opt ≤ bytes.length) (hfuel : bytes.length - opt < fuel) :
    ∃ os, OptionWalk (bytes.drop opt) os ∧
      readTcpOptions bytes bytes.length fuel opt params = .ok (decodeOptions os params) := by
  induction fuel generalizing opt params with
  | zero => omega
  | succ fuel ih =>
    by_cases hlt : opt < bytes.length
    · obtain ⟨kind,tail,hdrop⟩ : ∃ kind tail, bytes.drop opt = kind :: tail :=
        ⟨_,_,List.drop_eq_getElem_cons hlt⟩
      have hnext : bytes.drop (opt + 1) = tail := by
        rw [← List.tail_drop,hdrop,List.tail_cons]
      have htail : tail.length + (opt + 1) = bytes.length := by
        rw [← hnext,List.length_drop]
        omega
      have hkind : byteAt bytes opt = .ok kind := by
        have h := byteAt_drop bytes opt 0
        rw [hdrop] at h
        exact h
      rw [readTcpOptions,if_pos hlt,hkind,hdrop]
      simp only [bind,Except.bind,pure,Except.pure]
      split_ifs with heol hnop hend
      · subst heol
        exact ⟨[],.eol tail,by rw [decodeOptions_nil]⟩
      · subst hnop
        obtain ⟨os,hwalk,hrun⟩ := ih (opt + 1) params (by omega) (by omega)
        rw [hnext] at hwalk
        exact ⟨os,.nop hwalk,hrun⟩
      · obtain rfl : tail = [] := List.length_eq_zero_iff.mp (by omega)
        exact ⟨[],.noLength heol hnop,by rw [decodeOptions_nil]⟩
      · cases tail with
        | nil =>
          simp only [List.length_nil] at htail
          omega
        | cons len rest =>
          have hlenByte : byteAt bytes (opt + 1) = .ok len := by
            rw [byteAt_drop,hdrop]
            rfl
          simp only [List.length_cons] at htail
          rw [hlenByte]
          dsimp only
          split_ifs with hbad
          · exact ⟨[],.badLength heol hnop (by omega),by rw [decodeOptions_nil]⟩
          · push Not at hbad
            obtain ⟨value,rest,rfl,hvalue⟩ : ∃ value rest', rest = value ++ rest' ∧
                len.toNat = value.length + 2 := by
              refine ⟨rest.take (len.toNat - 2),rest.drop (len.toNat - 2),
                (List.take_append_drop ..).symm,?_⟩
              rw [List.length_take]
              omega
            have hrest : bytes.drop (opt + len.toNat) = rest := by
              rw [← List.drop_drop,hdrop,hvalue]
              simp
            obtain ⟨os,hwalk,hrun⟩ := ih (opt + len.toNat) (decodeOptions [⟨kind,value⟩] params)
              (by omega) (by omega)
            rw [hrest] at hwalk
            refine ⟨⟨kind,value⟩ :: os,.option heol hnop hvalue hwalk,?_⟩
            rw [readTcpOption_eq hdrop hvalue,decodeOptions_cons ⟨kind,value⟩ os]
            exact hrun
    · refine ⟨[],?_,?_⟩
      · rw [List.drop_eq_nil_of_le (by omega)]
        exact .finished
      · rw [readTcpOptions,if_neg hlt,decodeOptions_nil]

/-- The options of a packet, as the assembler's model of a SYN reads them, decode the same way. -/
theorem parseTcpOptions_walk {bytes : List UInt8} {os : List TcpOption} (h : OptionWalk bytes os)
    (fuel : Nat) (params : TcpNegotiatedParams) (hfuel : bytes.length ≤ fuel) :
    parseTcpOptions fuel bytes params = decodeOptions os params := by
  induction h generalizing fuel params with
  | finished => cases fuel <;> simp [parseTcpOptions]
  | eol rest => cases fuel <;> simp [parseTcpOptions]
  | nop h ih =>
    cases fuel with
    | zero => simp at hfuel
    | succ fuel =>
      rw [← ih fuel params (by simpa using hfuel)]
      simp [parseTcpOptions]
  | noLength h0 h1 => cases fuel <;> simp [parseTcpOptions,h0,h1]
  | badLength h0 h1 hlen =>
    cases fuel with
    | zero => simp at hfuel
    | succ fuel =>
      rw [parseTcpOptions,if_neg h0,if_neg h1,if_pos hlen,decodeOptions_nil]
  | @option kind len value rest os h0 h1 hlen h ih =>
    cases fuel with
    | zero => simp at hfuel
    | succ fuel =>
      simp only [List.length_cons,List.length_append] at hfuel
      have hgood : ¬(len.toNat < 2 ∨ len.toNat > (value ++ rest).length + 2) := by
        rw [List.length_append]
        omega
      have hdrop : (value ++ rest).drop (len.toNat - 2) = rest := by
        rw [hlen,Nat.add_sub_cancel,List.drop_left]
      rw [parseTcpOptions,if_neg h0,if_neg h1,if_neg hgood,hdrop,hlen,applyTcpOption_decode,
        ih fuel _ (by omega),← decodeOptions_cons]

/-- Reading the options of any header ends without leaving the header, and yields the decoding
of the one walk over its option bytes. -/
theorem parse_syn_options (hdr : TcpHeader) (outParams : TcpNegotiatedParams) :
    ∃ os, (∀ os', OptionWalk hdr.options os' ↔ os' = os) ∧
      hdr.parseTcpSynOption outParams = .ok (decodeOptions os outParams) ∧
      parseTcpSynOption hdr.options outParams = decodeOptions os outParams := by
  have hge := hdr.doff_ge
  have hlength := hdr.length_eq
  obtain ⟨os,hwalk,hrun⟩ := readTcpOptions_walk hdr.bytes
    (hdr.doff * 4 - sizeofTcphdr + 1) sizeofTcphdr outParams (by rw [sizeofTcphdr]; omega)
    (by rw [hlength,TcpHeader.doff]; omega)
  refine ⟨os,fun os' => ⟨fun h => h.unique hwalk,fun h => h ▸ hwalk⟩,?_,
    parseTcpOptions_walk hwalk _ _ le_rfl⟩
  unfold TcpHeader.parseTcpSynOption
  dsimp only
  split_ifs with hshort
  · have hnil : hdr.options = [] := List.drop_eq_nil_of_le (by rw [hlength]; exact hshort)
    rw [TcpHeader.options.eq_1] at hnil
    rw [hnil] at hwalk
    cases hwalk
    rw [decodeOptions_nil]
  · rw [hlength] at hrun
    exact hrun

/-- A header with a maximum segment size of 1400, padding, a window scale of 20 and a cut off
option. -/
def sampleSyn : TcpHeader :=
  ⟨List.replicate 12 0 ++ 0x80 :: List.replicate 7 0 ++ [2,4,5,120,1,3,3,20,4,2,9,9],
    by decide,by decide⟩

example : sampleSyn.parseTcpSynOption {} = .ok ⟨1400,14,true⟩ := rfl

end Aethon
