import Aethon.Framework.Wire
import Aethon.Tls.ClientHello

/-!
# The ClientHello grammar

The layout of a ClientHello record, field by field, and the parser's way through it: what stands
in a buffer in this layout is read as such, and what the parser reads a server name from stands
there in this layout.
-/

namespace Aethon.Tls

open Framework

section Layout

structure Extension where
  type : Nat
  data : List UInt8
  type_lt : type < 65536
  data_lt : data.length < 65536

def Extension.encode (e : Extension) : List UInt8 := u16Be e.type ++ vec16 e.data

def encodeExtensions (exts : List Extension) : List UInt8 := exts.flatMap Extension.encode

/-- The server_name extension with the given payload. -/
def serverName (data : List UInt8) (h : data.length < 65536) : Extension :=
  ⟨tlsExtServerName,data,by decide,h⟩

/-- The fields of a ClientHello record up to the end of its extension list. The preamble is the
handshake length, the client version and the random. -/
structure HelloFields where
  version : Nat
  recordLen : Nat
  preamble : List UInt8
  sessionId : List UInt8
  cipherSuites : List UInt8
  compression : List UInt8
  extensions : List UInt8
  version_ok : 0x0300 ≤ version ∧ version ≤ 0x0304
  recordLen_lt : recordLen < 65536
  preamble_length : preamble.length = 37
  sessionId_lt : sessionId.length < 256
  cipherSuites_lt : cipherSuites.length < 65536
  compression_lt : compression.length < 256
  extensions_lt : extensions.length < 65536

namespace HelloFields

variable (f : HelloFields)

def header : List UInt8 :=
  tlsRecordHandshake :: u16Be f.version ++ u16Be f.recordLen ++ [tlsHandshakeClientHello]

def encode : List UInt8 :=
  f.header ++ f.preamble ++ vec8 f.sessionId ++ vec16 f.cipherSuites ++ vec8 f.compression ++
    vec16 f.extensions

def ciphersPos : Nat := 43 + (1 + f.sessionId.length)

def compressionPos : Nat := f.ciphersPos + (2 + f.cipherSuites.length)

def extensionsPos : Nat := f.compressionPos + (1 + f.compression.length)

/-- The end of the extension list. -/
def stop : Nat := f.extensionsPos + 2 + f.extensions.length

theorem header_length : f.header.length = 6 := rfl

theorem encode_length : f.encode.length = f.stop := by
  simp only [encode,List.length_append,header_length,preamble_length,vec8_length,vec16_length,stop,
    extensionsPos,compressionPos,ciphersPos]
  omega

end HelloFields

end Layout

section Reads

variable {p : List UInt8} {pos : Nat}

theorem byteAt_eq_ok {b : UInt8} : byteAt p pos = .ok b ↔ StandsAt p pos [b] := by
  rw [standsAt_byte,byteAt]
  cases p[pos]? with
  | none => simp
  | some c => simp

theorem readU16Be_of_standsAt {n : Nat} (hn : n < 65536) (h : StandsAt p pos (u16Be n)) :
    readU16Be p pos = .ok n := by
  obtain ⟨hhi,hlo⟩ := standsAt_append.mp
    (show StandsAt p pos ([UInt8.ofNat (n / 256)] ++ [UInt8.ofNat (n % 256)]) from h)
  simp only [readU16Be,byteAt_eq_ok.mpr hhi,
    byteAt_eq_ok.mpr (show StandsAt p (pos + 1) _ from hlo),bind,Except.bind]
  exact congrArg Except.ok (beValue_u16Be hn)

theorem standsAt_of_readU16Be {n : Nat} (h : readU16Be p pos = .ok n) :
    StandsAt p pos (u16Be n) ∧ n < 65536 := by
  unfold readU16Be at h
  cases hhi : byteAt p pos with
  | error e => simp [hhi,bind,Except.bind] at h
  | ok hi =>
    cases hlo : byteAt p (pos + 1) with
    | error e => simp [hhi,hlo,bind,Except.bind] at h
    | ok lo =>
      simp only [hhi,hlo,bind,Except.bind] at h
      cases (Except.ok.inj h : beValue hi lo = n)
      refine ⟨?_,beValue_lt hi lo⟩
      rw [u16Be_beValue]
      exact StandsAt.append (byteAt_eq_ok.mp hhi) (byteAt_eq_ok.mp hlo)

theorem standsAt_vec16 {v : List UInt8} :
    StandsAt p pos (vec16 v) ↔ StandsAt p pos (u16Be v.length) ∧ StandsAt p (pos + 2) v :=
  standsAt_append

theorem standsAt_vec8 {v : List UInt8} :
    StandsAt p pos (vec8 v) ↔ StandsAt p pos [UInt8.ofNat v.length] ∧ StandsAt p (pos + 1) v := by
  rw [vec8,← List.singleton_append,standsAt_append,List.length_singleton]

end Reads

section Fields

variable {p : List UInt8} {f : HelloFields}

/-- The fields stand one behind the other. -/
structure FieldsAt (p : List UInt8) (f : HelloFields) : Prop where
  header : StandsAt p 0 f.header
  preamble : StandsAt p 6 f.preamble
  sessionId : StandsAt p 43 (vec8 f.sessionId)
  cipherSuites : StandsAt p f.ciphersPos (vec16 f.cipherSuites)
  compression : StandsAt p f.compressionPos (vec8 f.compression)
  extensions : StandsAt p f.extensionsPos (vec16 f.extensions)

theorem fieldsAt_iff : FieldsAt p f ↔ StandsAt p 0 f.encode := by
  have hpre : f.header.length + f.preamble.length = 43 := by
    rw [f.header_length,f.preamble_length]
  simp only [HelloFields.encode,standsAt_append,List.length_append,Nat.zero_add,hpre,vec8_length,
    vec16_length]
  constructor
  · intro h
    exact ⟨⟨⟨⟨⟨h.header,h.preamble⟩,h.sessionId⟩,h.cipherSuites⟩,h.compression⟩,h.extensions⟩
  · rintro ⟨⟨⟨⟨⟨h1,h2⟩,h3⟩,h4⟩,h5⟩,h6⟩
    exact ⟨h1,h2,h3,h4,h5,h6⟩

/-- The first six bytes, one field at a time. -/
theorem FieldsAt.start (h : FieldsAt p f) : StandsAt p 0 [tlsRecordHandshake] ∧
    StandsAt p 1 (u16Be f.version) ∧ StandsAt p 3 (u16Be f.recordLen) ∧
    StandsAt p 5 [tlsHandshakeClientHello] := by
  have hheader : StandsAt p 0 ([tlsRecordHandshake] ++ u16Be f.version ++ u16Be f.recordLen ++
      [tlsHandshakeClientHello]) := h.header
  simp only [standsAt_append,List.length_append,u16Be_length,List.length_singleton] at hheader
  exact ⟨hheader.1.1.1,hheader.1.1.2,hheader.1.2,hheader.2⟩

theorem FieldsAt.stop_le (h : FieldsAt p f) : f.stop ≤ p.length := by
  have hend := (fieldsAt_iff.mp h).end_le (by simp [HelloFields.encode,HelloFields.header])
  rw [f.encode_length] at hend
  omega

theorem toNat_length8 {v : List UInt8} (hv : v.length < 256) :
    (UInt8.ofNat v.length).toNat = v.length := UInt8.toNat_ofNat_of_lt hv

/-- The parser's way to the extension list. -/
theorem parseHelloBody_fields (h : FieldsAt p f) (result : TlsParseResult) :
    parseHelloBody p result = parseExtensions p f.stop (p.length + 1) (f.extensionsPos + 2) result := by
  have hstop := h.stop_le
  have hsession := byteAt_eq_ok.mpr (standsAt_vec8.mp h.sessionId).1
  have hciphers := readU16Be_of_standsAt f.cipherSuites_lt (standsAt_vec16.mp h.cipherSuites).1
  have hcompression := byteAt_eq_ok.mpr (standsAt_vec8.mp h.compression).1
  have hextensions := readU16Be_of_standsAt f.extensions_lt (standsAt_vec16.mp h.extensions).1
  have h1 : ¬p.length < 43 + 1 := by
    simp only [HelloFields.stop,HelloFields.extensionsPos,HelloFields.compressionPos,
      HelloFields.ciphersPos] at hstop
    omega
  have h2 : ¬p.length < f.ciphersPos + 2 := by
    simp only [HelloFields.stop,HelloFields.extensionsPos,HelloFields.compressionPos] at hstop
    omega
  have h3 : ¬p.length < f.compressionPos + 1 := by
    simp only [HelloFields.stop,HelloFields.extensionsPos] at hstop
    omega
  have h4 : ¬p.length < f.extensionsPos + 2 := by
    simp only [HelloFields.stop] at hstop
    omega
  have h5 : ¬p.length < f.extensionsPos + 2 + f.extensions.length := Nat.not_lt.mpr hstop
  have hpos1 : 43 + (1 + (UInt8.ofNat f.sessionId.length).toNat) = f.ciphersPos := by
    rw [toNat_length8 f.sessionId_lt]
    rfl
  have hpos3 : f.compressionPos + (1 + (UInt8.ofNat f.compression.length).toNat) =
      f.extensionsPos := by
    rw [toNat_length8 f.compression_lt]
    rfl
  have hpos2 : f.ciphersPos + (2 + f.cipherSuites.length) = f.compressionPos := rfl
  unfold parseHelloBody
  simp only [if_neg h1,hsession,bind,Except.bind,hpos1,if_neg h2,hciphers,hpos2,if_neg h3,
    hcompression,hpos3,if_neg h4,hextensions,if_neg h5]
  rfl

theorem parseClientHello_fields (h : FieldsAt p f) (hrecord : 5 + f.recordLen ≤ p.length) :
    parseClientHello p = parseExtensions p f.stop (p.length + 1) (f.extensionsPos + 2)
      { isTls := true, isClientHello := true } := by
  obtain ⟨hkind,hversion,hlen,htype⟩ := h.start
  have hstop := h.stop_le
  have h1 : ¬p.length < 9 := by
    simp only [HelloFields.stop,HelloFields.extensionsPos,HelloFields.compressionPos,
      HelloFields.ciphersPos] at hstop
    omega
  have h2 : ¬(f.version < 0x0300 ∨ f.version > 0x0304) := by
    have := f.version_ok
    omega
  have hversion_lt : f.version < 65536 := by
    have := f.version_ok
    omega
  unfold parseClientHello
  simp only [if_neg h1,byteAt_eq_ok.mpr hkind,readU16Be_of_standsAt hversion_lt hversion,
    readU16Be_of_standsAt f.recordLen_lt hlen,byteAt_eq_ok.mpr htype,bind,Except.bind,ne_eq,
    not_true_eq_false,if_false,if_neg h2,if_neg (Nat.not_lt.mpr hrecord)]
  exact parseHelloBody_fields h _

/-- A length byte and the bytes behind it are a vector. -/
theorem exists_vec8 {pos : Nat} {n : UInt8} (hn : byteAt p pos = .ok n)
    (hend : pos + (1 + n.toNat) ≤ p.length) :
    ∃ v : List UInt8, v.length = n.toNat ∧ StandsAt p pos (vec8 v) := by
  have hlen : ((p.drop (pos + 1)).take n.toNat).length = n.toNat := slice_length (by omega)
  refine ⟨_,hlen,standsAt_vec8.mpr ⟨?_,standsAt_slice⟩⟩
  rw [hlen,UInt8.ofNat_toNat]
  exact byteAt_eq_ok.mp hn

theorem exists_vec16 {pos n : Nat} (hn : readU16Be p pos = .ok n)
    (hend : pos + (2 + n) ≤ p.length) :
    ∃ v : List UInt8, v.length = n ∧ StandsAt p pos (vec16 v) := by
  have hlen : ((p.drop (pos + 2)).take n).length = n := slice_length (by omega)
  refine ⟨_,hlen,standsAt_vec16.mpr ⟨?_,standsAt_slice⟩⟩
  rw [hlen]
  exact (standsAt_of_readU16Be hn).1

/-- A server name comes out of a body whose vectors stand one behind the other. -/
theorem exists_body {result out : TlsParseResult} (h : parseHelloBody p result = .ok out)
    (hresult : result.sniLen = 0) (hsni : 0 < out.sniLen) :
    ∃ sessionId cipherSuites compression extensions : List UInt8,
      sessionId.length < 256 ∧ cipherSuites.length < 65536 ∧ compression.length < 256 ∧
      extensions.length < 65536 ∧ StandsAt p 43 (vec8 sessionId) ∧
      StandsAt p (43 + (1 + sessionId.length)) (vec16 cipherSuites) ∧
      StandsAt p (43 + (1 + sessionId.length) + (2 + cipherSuites.length)) (vec8 compression) ∧
      StandsAt p (43 + (1 + sessionId.length) + (2 + cipherSuites.length) +
        (1 + compression.length)) (vec16 extensions) := by
  have hno : ¬(.ok result : Checked TlsParseResult) = .ok out := fun heq => by
    cases heq
    omega
  unfold parseHelloBody at h
  dsimp only at h
  split at h
  · exact absurd h hno
  · obtain ⟨n1,hn1⟩ : ∃ n, byteAt p 43 = .ok n := ⟨_,byteAt_ok (by omega)⟩
    simp only [hn1,bind,Except.bind] at h
    split at h
    · exact absurd h hno
    · obtain ⟨n2,hn2⟩ : ∃ n, readU16Be p (43 + (1 + n1.toNat)) = .ok n := ⟨_,readU16Be_ok (by omega)⟩
      simp only [hn2] at h
      split at h
      · exact absurd h hno
      · obtain ⟨n3,hn3⟩ : ∃ n, byteAt p (43 + (1 + n1.toNat) + (2 + n2)) = .ok n :=
          ⟨_,byteAt_ok (by omega)⟩
        simp only [hn3] at h
        split at h
        · exact absurd h hno
        · obtain ⟨n4,hn4⟩ : ∃ n, readU16Be p
              (43 + (1 + n1.toNat) + (2 + n2) + (1 + n3.toNat)) = .ok n :=
            ⟨_,readU16Be_ok (by omega)⟩
          simp only [hn4] at h
          split at h
          · exact absurd h hno
          · obtain ⟨sessionId,hl1,hs1⟩ := exists_vec8 hn1 (by omega)
            obtain ⟨cipherSuites,hl2,hs2⟩ := exists_vec16 hn2 (by omega)
            obtain ⟨compression,hl3,hs3⟩ := exists_vec8 hn3 (by omega)
            obtain ⟨extensions,hl4,hs4⟩ := exists_vec16 hn4 (by omega)
            have hlt2 := (standsAt_of_readU16Be hn2).2
            have hlt4 := (standsAt_of_readU16Be hn4).2
            have hlt1 := n1.toNat_lt
            have hlt3 := n3.toNat_lt
            rw [← hl1,← hl2,← hl3] at hs4
            rw [← hl1,← hl2] at hs3
            rw [← hl1] at hs2
            exact ⟨sessionId,cipherSuites,compression,extensions,by omega,by omega,by omega,
              by omega,hs1,hs2,hs3,hs4⟩

/-- A server name comes out of a record in the layout of a ClientHello. -/
theorem exists_fields {out : TlsParseResult} (h : parseClientHello p = .ok out)
    (hsni : 0 < out.sniLen) : ∃ f, FieldsAt p f ∧ 5 + f.recordLen ≤ p.length := by
  have hno : ∀ result : TlsParseResult, result.sniLen = 0 →
      ¬(.ok result : Checked TlsParseResult) = .ok out := fun result hresult heq => by
    cases heq
    omega
  unfold parseClientHello at h
  dsimp only at h
  split at h
  · exact absurd h (hno _ rfl)
  · obtain ⟨kind,hkind⟩ : ∃ b, byteAt p 0 = .ok b := ⟨_,byteAt_ok (by omega)⟩
    obtain ⟨version,hversion⟩ : ∃ n, readU16Be p 1 = .ok n := ⟨_,readU16Be_ok (by omega)⟩
    obtain ⟨recordLen,hrecordLen⟩ : ∃ n, readU16Be p 3 = .ok n := ⟨_,readU16Be_ok (by omega)⟩
    obtain ⟨type,htype⟩ : ∃ b, byteAt p 5 = .ok b := ⟨_,byteAt_ok (by omega)⟩
    simp only [hkind,hversion,hrecordLen,htype,bind,Except.bind] at h
    split at h
    · exact absurd h (hno _ rfl)
    · split at h
      · exact absurd h (hno _ rfl)
      · split at h
        · exact absurd h (hno _ rfl)
        · split at h
          · exact absurd h (hno _ rfl)
          · rename_i _ hk hv hr ht
            obtain ⟨sessionId,cipherSuites,compression,extensions,hl1,hl2,hl3,hl4,hs1,hs2,hs3,hs4⟩ :=
              exists_body h rfl hsni
            have hbound := hs1.end_le (by simp [vec8])
            have hpre : ((p.drop 6).take 37).length = 37 := slice_length (by omega)
            refine ⟨⟨version,recordLen,(p.drop 6).take 37,sessionId,cipherSuites,compression,
              extensions,by omega,(standsAt_of_readU16Be hrecordLen).2,hpre,hl1,hl2,hl3,hl4⟩,
              ⟨?_,standsAt_slice,hs1,hs2,hs3,hs4⟩,Nat.not_lt.mp hr⟩
            have hk : kind = tlsRecordHandshake := by simpa using hk
            have ht : type = tlsHandshakeClientHello := by simpa using ht
            subst hk ht
            exact (((byteAt_eq_ok.mp hkind).append (standsAt_of_readU16Be hversion).1).append
              (standsAt_of_readU16Be hrecordLen).1).append (byteAt_eq_ok.mp htype)

end Fields

section Extensions

variable {p : List UInt8} {stop : Nat}

theorem Extension.encode_length (e : Extension) : e.encode.length = 4 + e.data.length := by
  simp only [encode,List.length_append,u16Be_length,vec16_length]
  omega

theorem standsAt_extension {pos : Nat} {e : Extension} (h : StandsAt p pos e.encode) :
    readU16Be p pos = .ok e.type ∧ readU16Be p (pos + 2) = .ok e.data.length ∧
      StandsAt p (pos + 4) e.data := by
  obtain ⟨htype,hvec⟩ := standsAt_append.mp h
  obtain ⟨hlen,hdata⟩ := standsAt_vec16.mp hvec
  exact ⟨readU16Be_of_standsAt e.type_lt htype,readU16Be_of_standsAt e.data_lt hlen,hdata⟩

/-- The loop passes extensions of other types. -/
theorem parseExtensions_pass {exts : List Extension} (hother : ∀ e ∈ exts, e.type ≠ tlsExtServerName)
    {pos : Nat} (hat : StandsAt p pos (encodeExtensions exts))
    (hstop : pos + (encodeExtensions exts).length ≤ stop) (fuel : Nat) (result : TlsParseResult) :
    parseExtensions p stop (exts.length + fuel) pos result =
      parseExtensions p stop fuel (pos + (encodeExtensions exts).length) result := by
  induction exts generalizing pos with
  | nil => simp [encodeExtensions]
  | cons e exts ih =>
    have hcons : encodeExtensions (e :: exts) = e.encode ++ encodeExtensions exts := rfl
    rw [hcons] at hat hstop ⊢
    obtain ⟨he,hrest⟩ := standsAt_append.mp hat
    obtain ⟨htype,hlen,_⟩ := standsAt_extension he
    rw [List.length_append,e.encode_length] at hstop
    have hnext : pos + 4 + e.data.length = pos + e.encode.length := by
      rw [e.encode_length,Nat.add_assoc]
    have hfuel : (e :: exts).length + fuel = exts.length + fuel + 1 := by
      rw [List.length_cons]
      omega
    rw [hfuel,parseExtensions,if_pos (by omega)]
    simp only [htype,hlen,bind,Except.bind]
    rw [if_neg (by omega),if_neg (hother e List.mem_cons_self),hnext,
      ih (fun e' h => hother e' (List.mem_cons_of_mem _ h)) hrest
        (by rw [e.encode_length]; omega),List.length_append,Nat.add_assoc]

theorem parseExtensions_serverName {data : List UInt8} {hdata : data.length < 65536} {pos : Nat}
    (hat : StandsAt p pos (serverName data hdata).encode)
    (hstop : pos + 4 + data.length ≤ stop) (fuel : Nat) (result : TlsParseResult) :
    parseExtensions p stop (fuel + 1) pos result =
      parseServerName p stop (pos + 4) data.length result := by
  obtain ⟨htype,hlen,_⟩ := standsAt_extension hat
  have hlen : readU16Be p (pos + 2) = .ok data.length := hlen
  have htype : readU16Be p pos = .ok tlsExtServerName := htype
  rw [parseExtensions,if_pos (by omega)]
  simp only [htype,hlen,bind,Except.bind]
  rw [if_neg (by omega),if_pos trivial]

theorem length_le_encodeExtensions (exts : List Extension) :
    exts.length ≤ (encodeExtensions exts).length := by
  induction exts with
  | nil => simp [encodeExtensions]
  | cons e exts ih =>
    have hcons : encodeExtensions (e :: exts) = e.encode ++ encodeExtensions exts := rfl
    rw [hcons,List.length_append,e.encode_length,List.length_cons]
    omega

/-- The first server_name extension decides. -/
theorem parseExtensions_first {exts : List Extension}
    (hother : ∀ e ∈ exts, e.type ≠ tlsExtServerName) {data : List UInt8}
    {hdata : data.length < 65536} {pos fuel : Nat}
    (hat : StandsAt p pos (encodeExtensions exts ++ (serverName data hdata).encode))
    (hstop : pos + (encodeExtensions exts).length + 4 + data.length ≤ stop)
    (hfuel : stop < pos + fuel) (result : TlsParseResult) :
    parseExtensions p stop fuel pos result =
      parseServerName p stop (pos + (encodeExtensions exts).length + 4) data.length result := by
  obtain ⟨hexts,hname⟩ := standsAt_append.mp hat
  have hle := length_le_encodeExtensions exts
  obtain ⟨rest,rfl⟩ : ∃ rest, fuel = exts.length + (rest + 1) :=
    ⟨fuel - exts.length - 1,by omega⟩
  rw [parseExtensions_pass hother hexts (by omega),parseExtensions_serverName hname hstop]

/-- A name comes out of the first server_name extension. -/
theorem exists_serverName (hend : stop ≤ p.length) {fuel pos : Nat} {result out : TlsParseResult}
    (h : parseExtensions p stop fuel pos result = .ok out) (hresult : result.sniLen = 0)
    (hsni : 0 < out.sniLen) :
    ∃ (exts : List Extension) (data : List UInt8) (hdata : data.length < 65536),
      (∀ e ∈ exts, e.type ≠ tlsExtServerName) ∧
      StandsAt p pos (encodeExtensions exts ++ (serverName data hdata).encode) ∧
      pos + (encodeExtensions exts).length + 4 + data.length ≤ stop ∧
      parseServerName p stop (pos + (encodeExtensions exts).length + 4) data.length result =
        .ok out := by
  have hno : ¬(.ok result : Checked TlsParseResult) = .ok out := fun heq => by
    cases heq
    omega
  induction fuel generalizing pos with
  | zero => cases h
  | succ fuel ih =>
    rw [parseExtensions] at h
    split at h
    · obtain ⟨type,htype⟩ : ∃ n, readU16Be p pos = .ok n := ⟨_,readU16Be_ok (by omega)⟩
      obtain ⟨len,hlen⟩ : ∃ n, readU16Be p (pos + 2) = .ok n := ⟨_,readU16Be_ok (by omega)⟩
      simp only [htype,hlen,bind,Except.bind] at h
      split at h
      · exact absurd h hno
      · obtain ⟨data,rfl,hvec⟩ := exists_vec16 hlen (by omega)
        have hstands := (standsAt_of_readU16Be htype).1.append hvec
        have hlt := (standsAt_of_readU16Be hlen).2
        split at h
        · rename_i hname
          subst hname
          exact ⟨[],data,hlt,by simp,hstands,by simpa [encodeExtensions] using Nat.not_lt.mp ‹_›,h⟩
        · rename_i hover hother
          let e : Extension := ⟨type,data,(standsAt_of_readU16Be htype).2,hlt⟩
          obtain ⟨exts,name,hname,hall,hat,hle,hrun⟩ := ih h
          have hcons : encodeExtensions (e :: exts) = e.encode ++ encodeExtensions exts := rfl
          have hlength : e.encode.length = 4 + data.length := e.encode_length
          have hpos : pos + (encodeExtensions (e :: exts)).length =
              pos + 4 + data.length + (encodeExtensions exts).length := by
            rw [hcons,List.length_append,hlength]
            omega
          refine ⟨e :: exts,name,hname,?_,?_,by rw [hpos]; exact hle,by rw [hpos]; exact hrun⟩
          · intro e' he'
            rcases List.mem_cons.mp he' with rfl | he'
            · exact hother
            · exact hall e' he'
          · rw [hcons,List.append_assoc]
            refine StandsAt.append hstands ?_
            rw [hlength,← Nat.add_assoc]
            exact hat
    · exact absurd h hno

/-- The start of a server name list: its length, a host_name entry and the length of its name. -/
def listStart (listLen nameLen : Nat) : List UInt8 :=
  u16Be listLen ++ tlsSniHostName :: u16Be nameLen

/-- A server name list that starts with a host name. -/
def hostList (name entries : List UInt8) : List UInt8 :=
  vec16 (tlsSniHostName :: vec16 name ++ entries)

theorem hostList_eq (name entries : List UInt8) : hostList name entries =
    listStart (3 + name.length + entries.length) name.length ++ (name ++ entries) := by
  have hlen : (tlsSniHostName :: vec16 name ++ entries).length =
      3 + name.length + entries.length := by
    simp only [List.length_append,List.length_cons,vec16_length]
    omega
  rw [hostList,vec16,hlen,listStart,vec16]
  simp

theorem standsAt_listStart {pos listLen nameLen : Nat} :
    StandsAt p pos (listStart listLen nameLen) ↔ StandsAt p pos (u16Be listLen) ∧
      StandsAt p (pos + 2) [tlsSniHostName] ∧ StandsAt p (pos + 3) (u16Be nameLen) := by
  rw [listStart,standsAt_append,← List.singleton_append,standsAt_append,u16Be_length,
    List.length_singleton]

/-- What the parser asks of a server_name extension before it takes a name from it. -/
structure TakesName (p : List UInt8) (stop offset extLen listLen nameLen : Nat) : Prop where
  list_lt : listLen < 65536
  name_lt : nameLen < 65536
  start : StandsAt p offset (listStart listLen nameLen)
  extension : 5 ≤ extLen
  list : 2 + listLen ≤ extLen
  entry : 3 ≤ listLen
  inside : offset + 5 + nameLen ≤ stop
  named : 0 < nameLen

theorem TakesName.parse {offset extLen listLen nameLen : Nat}
    (h : TakesName p stop offset extLen listLen nameLen) (result : TlsParseResult) :
    parseServerName p stop offset extLen result =
      .ok { result with sniPos := offset + 5, sniLen := nameLen } := by
  obtain ⟨hlist,htype,hname⟩ := standsAt_listStart.mp h.start
  have h1 := h.extension
  have h2 := h.list
  have h3 := h.entry
  rw [parseServerName,if_neg (by omega)]
  simp only [readU16Be_of_standsAt h.list_lt hlist,byteAt_eq_ok.mpr htype,
    readU16Be_of_standsAt h.name_lt hname,bind,Except.bind]
  rw [if_neg (by omega),if_pos ⟨trivial,h.inside,h.named⟩]
  rfl

theorem exists_takesName {offset extLen : Nat} {result out : TlsParseResult}
    (hinside : offset + extLen ≤ p.length)
    (h : parseServerName p stop offset extLen result = .ok out) (hresult : result.sniLen = 0)
    (hsni : 0 < out.sniLen) :
    ∃ listLen, TakesName p stop offset extLen listLen out.sniLen ∧ out.sniPos = offset + 5 := by
  have hno : ¬(.ok result : Checked TlsParseResult) = .ok out := fun heq => by
    cases heq
    omega
  unfold parseServerName at h
  split at h
  · exact absurd h hno
  · obtain ⟨listLen,hlist⟩ : ∃ n, readU16Be p offset = .ok n := ⟨_,readU16Be_ok (by omega)⟩
    obtain ⟨type,htype⟩ : ∃ b, byteAt p (offset + 2) = .ok b := ⟨_,byteAt_ok (by omega)⟩
    obtain ⟨nameLen,hname⟩ : ∃ n, readU16Be p (offset + 3) = .ok n := ⟨_,readU16Be_ok (by omega)⟩
    simp only [hlist,htype,hname,bind,Except.bind] at h
    split at h
    · exact absurd h hno
    · split at h
      · rename_i hext hlen hcond
        cases h
        obtain ⟨hl,hllt⟩ := standsAt_of_readU16Be hlist
        obtain ⟨hn,hnlt⟩ := standsAt_of_readU16Be hname
        have ht := byteAt_eq_ok.mp htype
        rw [hcond.1] at ht
        exact ⟨listLen,⟨hllt,hnlt,standsAt_listStart.mpr ⟨hl,ht,hn⟩,by omega,by omega,by omega,
          hcond.2.1,hcond.2.2⟩,rfl⟩
      · exact absurd h hno

end Extensions

end Aethon.Tls
