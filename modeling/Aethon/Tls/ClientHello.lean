import Aethon.Container.SingleThreadHashMap

/-!
# The ClientHello parser

Every read of the payload is checked against its length, so that a parse which returns has
stayed inside the buffer. The server name is a view: a position in the payload and a length.
-/

namespace Aethon.Tls

open Framework

def tlsRecordHandshake : UInt8 := 0x16
def tlsRecordApplicationData : UInt8 := 0x17
def tlsHandshakeClientHello : UInt8 := 0x01
def tlsExtServerName : Nat := 0x0000
def tlsSniHostName : UInt8 := 0x00

structure TlsParseResult where
  isTls : Bool := false
  isClientHello : Bool := false
  sniPos : Nat := 0
  sniLen : Nat := 0
  deriving DecidableEq, Repr

/-- The bytes of the `sni` view. -/
def TlsParseResult.sni (result : TlsParseResult) (payload : List UInt8) : List UInt8 :=
  (payload.drop result.sniPos).take result.sniLen

/-- A read of `payload[i]`. -/
def byteAt (payload : List UInt8) (i : Nat) : Checked UInt8 :=
  match payload[i]? with
  | some b => .ok b
  | none => .error .outOfBounds

def readU16Be (payload : List UInt8) (i : Nat) : Checked Nat := do
  let hi ← byteAt payload i
  let lo ← byteAt payload (i + 1)
  return hi.toNat * 256 + lo.toNat

/-- The server_name extension of length `extLen` at `offset`. -/
def parseServerName (payload : List UInt8) (extensionsEnd offset extLen : Nat)
    (result : TlsParseResult) : Checked TlsParseResult :=
  if extLen < 5 then .ok result
  else do
    let sniListLen ← readU16Be payload offset
    if extLen < 2 + sniListLen ∨ sniListLen < 3 then return result
    else
      let nameType ← byteAt payload (offset + 2)
      let nameLen ← readU16Be payload (offset + 3)
      if nameType = tlsSniHostName ∧ offset + 5 + nameLen ≤ extensionsEnd ∧ nameLen > 0 then
        return { result with sniPos := offset + 5, sniLen := nameLen }
      else return result

/-- The extension loop. Each round moves `offset` by four or more. -/
def parseExtensions (payload : List UInt8) (extensionsEnd : Nat) :
    Nat → Nat → TlsParseResult → Checked TlsParseResult
  | 0, _, _ => .error .outOfFuel
  | fuel + 1, offset, result =>
      if offset + 4 ≤ extensionsEnd then do
        let extType ← readU16Be payload offset
        let extLen ← readU16Be payload (offset + 2)
        if offset + 4 + extLen > extensionsEnd then return result
        else if extType = tlsExtServerName then
          parseServerName payload extensionsEnd (offset + 4) extLen result
        else parseExtensions payload extensionsEnd fuel (offset + 4 + extLen) result
      else .ok result

/-- The ClientHello body from the session id on. -/
def parseHelloBody (payload : List UInt8) (result : TlsParseResult) : Checked TlsParseResult :=
  let len := payload.length
  let offset := 43
  if len < offset + 1 then .ok result
  else do
    let sessionIdLen ← byteAt payload offset
    let offset := offset + (1 + sessionIdLen.toNat)
    if len < offset + 2 then return result
    else
      let cipherSuitesLen ← readU16Be payload offset
      let offset := offset + (2 + cipherSuitesLen)
      if len < offset + 1 then return result
      else
        let compressionMethodsLen ← byteAt payload offset
        let offset := offset + (1 + compressionMethodsLen.toNat)
        if len < offset + 2 then return result
        else
          let extensionsTotalLen ← readU16Be payload offset
          let offset := offset + 2
          if len < offset + extensionsTotalLen then return result
          else parseExtensions payload (offset + extensionsTotalLen) (len + 1) offset result

def parseClientHello (payload : List UInt8) : Checked TlsParseResult :=
  let len := payload.length
  if len < 9 then .ok {}
  else do
    let kind ← byteAt payload 0
    if kind ≠ tlsRecordHandshake then
      return { isTls := kind = tlsRecordApplicationData }
    else
      let recordVersion ← readU16Be payload 1
      if recordVersion < 0x0300 ∨ recordVersion > 0x0304 then return { isTls := true }
      else
        let recordLen ← readU16Be payload 3
        if len < 5 + recordLen then return { isTls := true }
        else
          let handshake ← byteAt payload 5
          if handshake ≠ tlsHandshakeClientHello then return { isTls := true }
          else parseHelloBody payload { isTls := true, isClientHello := true }

section Bounds

variable {payload : List UInt8}

theorem byteAt_ok {i : Nat} (h : i < payload.length) : byteAt payload i = .ok (payload.getD i 0) := by
  simp [byteAt,List.getElem?_eq_getElem h]

theorem readU16Be_ok {i : Nat} (h : i + 1 < payload.length) :
    readU16Be payload i =
      .ok ((payload.getD i 0).toNat * 256 + (payload.getD (i + 1) 0).toNat) := by
  simp only [readU16Be,byteAt_ok (show i < payload.length by omega),byteAt_ok h]
  rfl

/-- A result whose view lies inside the payload and that keeps the two flags of `result`. -/
def Inside (payload : List UInt8) (result out : TlsParseResult) : Prop :=
  out.isTls = result.isTls ∧ out.isClientHello = result.isClientHello ∧
    out.sniPos + out.sniLen ≤ payload.length

theorem parseServerName_inside {extensionsEnd offset extLen : Nat} {result : TlsParseResult}
    (hend : extensionsEnd ≤ payload.length) (hext : offset + extLen ≤ extensionsEnd)
    (hres : result.sniPos + result.sniLen ≤ payload.length) :
    ∃ out, parseServerName payload extensionsEnd offset extLen result = .ok out ∧
      Inside payload result out := by
  have hsame : Inside payload result result := ⟨rfl,rfl,hres⟩
  unfold parseServerName
  split_ifs with hshort
  · exact ⟨result,rfl,hsame⟩
  · simp only [readU16Be_ok (show offset + 1 < payload.length by omega),
      byteAt_ok (show offset + 2 < payload.length by omega),
      readU16Be_ok (show offset + 3 + 1 < payload.length by omega),bind,Except.bind]
    split_ifs with hlist hname
    · exact ⟨result,rfl,hsame⟩
    · exact ⟨_,rfl,rfl,rfl,by dsimp only; omega⟩
    · exact ⟨result,rfl,hsame⟩

theorem parseExtensions_inside {extensionsEnd : Nat} (hend : extensionsEnd ≤ payload.length)
    (fuel offset : Nat) (result : TlsParseResult) (hoff : offset ≤ extensionsEnd)
    (hfuel : extensionsEnd < offset + fuel)
    (hres : result.sniPos + result.sniLen ≤ payload.length) :
    ∃ out, parseExtensions payload extensionsEnd fuel offset result = .ok out ∧
      Inside payload result out := by
  have hsame : Inside payload result result := ⟨rfl,rfl,hres⟩
  induction fuel generalizing offset with
  | zero => omega
  | succ fuel ih =>
    unfold parseExtensions
    split_ifs with hmore
    · simp only [readU16Be_ok (show offset + 1 < payload.length by omega),
        readU16Be_ok (show offset + 2 + 1 < payload.length by omega),bind,Except.bind]
      split_ifs with hover hname
      · exact ⟨result,rfl,hsame⟩
      · exact parseServerName_inside hend (by omega) hres
      · exact ih _ (by omega) (by omega)
    · exact ⟨result,rfl,hsame⟩

theorem parseHelloBody_inside (payload : List UInt8) (result : TlsParseResult)
    (hres : result.sniPos + result.sniLen ≤ payload.length) :
    ∃ out, parseHelloBody payload result = .ok out ∧ Inside payload result out := by
  have hsame : ∃ out, (.ok result : Checked TlsParseResult) = .ok out ∧
      Inside payload result out := ⟨result,rfl,rfl,rfl,hres⟩
  unfold parseHelloBody
  dsimp only
  split_ifs with hsession
  · exact hsame
  · rw [byteAt_ok (show 43 < payload.length by omega)]
    simp only [bind,Except.bind]
    generalize 43 + (1 + (payload.getD 43 0).toNat) = ciphers
    split_ifs with hciphers
    · exact hsame
    · rw [readU16Be_ok (show ciphers + 1 < payload.length by omega)]
      simp only
      generalize ciphers + (2 + ((payload.getD ciphers 0).toNat * 256 +
        (payload.getD (ciphers + 1) 0).toNat)) = compression
      split_ifs with hcompression
      · exact hsame
      · rw [byteAt_ok (show compression < payload.length by omega)]
        simp only
        generalize compression + (1 + (payload.getD compression 0).toNat) = extensions
        split_ifs with hextensions
        · exact hsame
        · rw [readU16Be_ok (show extensions + 1 < payload.length by omega)]
          simp only
          split_ifs with htotal
          · exact hsame
          · exact parseExtensions_inside (by omega) _ _ _ (by omega) (by omega) hres

/-- The parser returns on every input, and the server name lies inside the payload. -/
theorem parseClientHello_ok (payload : List UInt8) :
    ∃ out, parseClientHello payload = .ok out ∧ out.sniPos + out.sniLen ≤ payload.length := by
  unfold parseClientHello
  dsimp only
  split_ifs with hlen
  · exact ⟨{},rfl,Nat.zero_le _⟩
  · simp only [byteAt_ok (show 0 < payload.length by omega),
      readU16Be_ok (show 1 + 1 < payload.length by omega),
      readU16Be_ok (show 3 + 1 < payload.length by omega),
      byteAt_ok (show 5 < payload.length by omega),bind,Except.bind]
    split_ifs with hkind hversion hrecord hhello
    · exact ⟨_,rfl,Nat.zero_le _⟩
    · exact ⟨_,rfl,Nat.zero_le _⟩
    · exact ⟨_,rfl,Nat.zero_le _⟩
    · exact ⟨_,rfl,Nat.zero_le _⟩
    · obtain ⟨out,hout,_,_,hinside⟩ := parseHelloBody_inside payload
        { isTls := true, isClientHello := true } (Nat.zero_le _)
      exact ⟨out,hout,hinside⟩

/-- A read past the end is an error, and the parser meets none: it returns on every payload,
with a server name that is a stretch of it. -/
theorem parse_stays_inside (payload : List UInt8) :
    (∀ i, payload.length ≤ i → byteAt payload i = .error .outOfBounds) ∧
      ∃ out, parseClientHello payload = .ok out ∧
        out.sniPos + out.sniLen ≤ payload.length ∧ (out.sni payload).length = out.sniLen := by
  constructor
  · intro i hi
    simp [byteAt,List.getElem?_eq_none hi]
  · obtain ⟨out,hout,hinside⟩ := parseClientHello_ok payload
    refine ⟨out,hout,hinside,?_⟩
    rw [TlsParseResult.sni,List.length_take,List.length_drop]
    omega

end Bounds

def recordVersion (payload : List UInt8) : Nat :=
  (payload.getD 1 0).toNat * 256 + (payload.getD 2 0).toNat

def recordLen (payload : List UInt8) : Nat :=
  (payload.getD 3 0).toNat * 256 + (payload.getD 4 0).toNat

/-- A complete TLS handshake record that starts with a ClientHello. -/
structure HelloRecord (record : List UInt8) : Prop where
  kind : record.getD 0 0 = tlsRecordHandshake
  complete : record.length = 5 + recordLen record
  bounded : recordLen record ≤ 16384
  handshake : record.getD 5 0 = tlsHandshakeClientHello

/-- What the parser asks of a record before it looks at the handshake type: a handshake header,
and a version from SSL 3.0 to TLS 1.3. -/
def Legible (record : List UInt8) : Prop :=
  9 ≤ record.length ∧ 0x0300 ≤ recordVersion record ∧ recordVersion record ≤ 0x0304

theorem HelloRecord.parse {record : List UInt8} (h : HelloRecord record)
    (hlegible : Legible record) :
    ∃ out, parseClientHello record = .ok out ∧ out.isClientHello = true := by
  obtain ⟨hheader,hversion⟩ := hlegible
  have hcomplete := h.complete
  obtain ⟨out,hout,_,hhello,_⟩ := parseHelloBody_inside record
    { isTls := true, isClientHello := true } (Nat.zero_le _)
  refine ⟨out,?_,hhello⟩
  have hlen : ¬ record.length < 9 := by omega
  have hver : ¬ (recordVersion record < 0x0300 ∨ recordVersion record > 0x0304) := by omega
  have hrec : ¬ record.length < 5 + recordLen record := by omega
  unfold parseClientHello
  simp only [hlen,if_false,byteAt_ok (show 0 < record.length by omega),
    readU16Be_ok (show 1 + 1 < record.length by omega),
    readU16Be_ok (show 3 + 1 < record.length by omega),
    byteAt_ok (show 5 < record.length by omega),bind,Except.bind,h.kind,h.handshake,ne_eq,
    not_true_eq_false]
  rw [recordVersion] at hver
  rw [recordLen] at hrec
  simp only [hver,hrec,if_false]
  exact hout

/-- A record that the parser cannot read is no ClientHello for it, and has no server name. -/
theorem HelloRecord.parse_illegible {record : List UInt8} (h : HelloRecord record)
    (hlegible : ¬ Legible record) :
    ∃ out, parseClientHello record = .ok out ∧ out.isClientHello = false ∧ out.sniLen = 0 := by
  unfold parseClientHello
  by_cases hlen : record.length < 9
  · exact ⟨_,if_pos hlen,rfl,rfl⟩
  · have hver : recordVersion record < 0x0300 ∨ recordVersion record > 0x0304 := by
      by_contra hno
      exact hlegible ⟨by omega,by omega,by omega⟩
    rw [recordVersion] at hver
    simp only [hlen,if_false,byteAt_ok (show 0 < record.length by omega),
      readU16Be_ok (show 1 + 1 < record.length by omega),bind,Except.bind,h.kind,ne_eq,
      not_true_eq_false,hver,if_true]
    exact ⟨_,rfl,rfl,rfl⟩

/-- A ClientHello for the server name `ab`. -/
def sampleHello : List UInt8 :=
  [0x16,3,1,0,58,1,0,0,54,3,3] ++ List.replicate 32 0 ++
    [0,0,2,0x13,1,1,0,0,11,0,0,0,7,0,5,0,0,2,0x61,0x62]

theorem sampleHello_length_lt : sampleHello.length < 65536 := by decide

example : (parseClientHello sampleHello).toOption.map (fun r => r.sni sampleHello) =
    some [0x61,0x62] := by decide +kernel

end Aethon.Tls
