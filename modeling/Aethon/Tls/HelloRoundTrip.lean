import Aethon.Tls.HelloGrammar

/-!
# The ClientHello round trip

A ClientHello that a client encodes is recognised by the parser, and the name it asks for comes
back, whatever the other fields are and whatever follows the record.
-/

namespace Aethon.Tls

open Framework

/-- A ClientHello, with the sizes that its length fields can carry. -/
structure ClientHello where
  recordVersion : Nat
  clientVersion : Nat
  random : List UInt8
  sessionId : List UInt8
  cipherSuites : List UInt8
  compression : List UInt8
  extensions : List Extension
  recordVersion_ok : 0x0300 ≤ recordVersion ∧ recordVersion ≤ 0x0304
  random_length : random.length = 32
  sessionId_le : sessionId.length ≤ 255
  compression_le : compression.length ≤ 255

namespace ClientHello

variable (c : ClientHello)

def body : List UInt8 :=
  u16Be c.clientVersion ++ c.random ++ vec8 c.sessionId ++ vec16 c.cipherSuites ++
    vec8 c.compression ++ vec16 (encodeExtensions c.extensions)

/-- The handshake message: its type, its length and the body. -/
def handshake : List UInt8 := tlsHandshakeClientHello :: u24Be c.body.length ++ c.body

/-- The record: its type, its version, its length and the message. -/
def encode : List UInt8 :=
  tlsRecordHandshake :: u16Be c.recordVersion ++ vec16 c.handshake

theorem handshake_length : c.handshake.length = 38 + (1 + c.sessionId.length) +
    (2 + c.cipherSuites.length) + (1 + c.compression.length) +
    (2 + (encodeExtensions c.extensions).length) := by
  simp only [handshake,body,List.length_cons,List.length_append,u16Be_length,u24Be_length,
    vec8_length,vec16_length,c.random_length]
  omega

/-- The fields that the parser goes through. -/
def fields (h : c.handshake.length ≤ 65535) : HelloFields where
  version := c.recordVersion
  recordLen := c.handshake.length
  preamble := u24Be c.body.length ++ u16Be c.clientVersion ++ c.random
  sessionId := c.sessionId
  cipherSuites := c.cipherSuites
  compression := c.compression
  extensions := encodeExtensions c.extensions
  version_ok := c.recordVersion_ok
  recordLen_lt := by omega
  preamble_length := by simp [c.random_length]
  sessionId_lt := by
    have := c.sessionId_le
    omega
  cipherSuites_lt := by
    have := c.handshake_length
    omega
  compression_lt := by
    have := c.compression_le
    omega
  extensions_lt := by
    have := c.handshake_length
    omega

theorem encode_eq (h : c.handshake.length ≤ 65535) : c.encode = (c.fields h).encode := by
  simp [encode,vec16,handshake,body,HelloFields.encode,HelloFields.header,fields]

/-- The first server_name extension holds a list that starts with the host name. -/
structure Asks (name : List UInt8) : Prop where
  ne_nil : name ≠ []
  first : ∃ (before after : List Extension) (data entries : List UInt8)
    (hdata : data.length < 65536), c.extensions = before ++ serverName data hdata :: after ∧
      (∀ e ∈ before, e.type ≠ tlsExtServerName) ∧
      data = hostList name entries

end ClientHello

theorem sni_eq {p name : List UInt8} {pos : Nat} (h : StandsAt p pos name)
    {result : TlsParseResult} (hpos : result.sniPos = pos) (hlen : result.sniLen = name.length) :
    result.sni p = name := by
  rw [TlsParseResult.sni,hpos,hlen]
  exact (List.prefix_iff_eq_take.mp h).symm

/-- The parser recognises an encoded ClientHello and finds the name it asks for. -/
theorem parseClientHello_encode (c : ClientHello) {name : List UInt8} (hasks : c.Asks name)
    (hlen : c.handshake.length ≤ 65535) (tail : List UInt8) :
    ∃ out, parseClientHello (c.encode ++ tail) = .ok out ∧ out.isTls = true ∧
      out.isClientHello = true ∧ out.sni (c.encode ++ tail) = name := by
  obtain ⟨before,after,data,entries,hdata,hexts,hother,hentry⟩ := hasks.first
  have hpos := List.length_pos_iff.mpr hasks.ne_nil
  have hsize : data.length = 5 + name.length + entries.length := by
    simp only [hentry,hostList,vec16_length,List.length_append,List.length_cons]
    omega
  have hat : FieldsAt (c.encode ++ tail) (c.fields hlen) := by
    rw [fieldsAt_iff,← c.encode_eq hlen]
    exact List.prefix_append _ _
  have hrecord : 5 + (c.fields hlen).recordLen ≤ (c.encode ++ tail).length := by
    simp only [ClientHello.fields,ClientHello.encode,List.length_append,List.length_cons,
      u16Be_length,vec16_length]
    omega
  have hencoded : encodeExtensions c.extensions = encodeExtensions before ++
      (serverName data hdata).encode ++ encodeExtensions after := by
    simp [hexts,encodeExtensions]
  have hlist := (standsAt_vec16.mp hat.extensions).2
  have hlist : StandsAt (c.encode ++ tail) ((c.fields hlen).extensionsPos + 2)
      (encodeExtensions before ++ (serverName data hdata).encode ++ encodeExtensions after) := by
    rw [← hencoded]
    exact hlist
  obtain ⟨hfirst,_⟩ := standsAt_append.mp hlist
  have hstop : (c.fields hlen).extensionsPos + 2 + (encodeExtensions before).length + 4 +
      data.length ≤ (c.fields hlen).stop := by
    have hlength := congrArg List.length hencoded
    have hext : (serverName data hdata).encode.length = 4 + data.length :=
      (serverName data hdata).encode_length
    simp only [List.length_append,hext] at hlength
    change _ ≤ (c.fields hlen).extensionsPos + 2 + (encodeExtensions c.extensions).length
    omega
  obtain ⟨_,_,hstart⟩ := standsAt_extension (standsAt_append.mp hfirst).2
  rw [show (serverName data hdata).data = _ from hentry.trans (hostList_eq name entries),
    standsAt_append] at hstart
  obtain ⟨hstart,hname⟩ := hstart
  have htakes : TakesName (c.encode ++ tail) (c.fields hlen).stop
      ((c.fields hlen).extensionsPos + 2 + (encodeExtensions before).length + 4) data.length
      (3 + name.length + entries.length) name.length :=
    ⟨by omega,by omega,hstart,by omega,by omega,by omega,by omega,hpos⟩
  have hfuel := hat.stop_le
  refine ⟨⟨true,true,(c.fields hlen).extensionsPos + 2 + (encodeExtensions before).length + 4 + 5,
    name.length⟩,?_,rfl,rfl,sni_eq (standsAt_append.mp hname).1 rfl rfl⟩
  rw [parseClientHello_fields hat hrecord,
    parseExtensions_first hother hfirst hstop (by omega),htakes.parse]

/-- The hello of the shipped test for the name `ab`, with one extension in front. -/
def askingHello : ClientHello where
  recordVersion := 0x0301
  clientVersion := 0x0303
  random := List.replicate 32 0
  sessionId := []
  cipherSuites := [0x13,0x01]
  compression := [0]
  extensions := [⟨10,[0,29],by decide,by decide⟩,serverName (hostList [0x61,0x62] []) (by decide)]
  recordVersion_ok := by decide
  random_length := rfl
  sessionId_le := by decide
  compression_le := by decide

theorem parseClientHello_encode_asking : ∃ out, parseClientHello (askingHello.encode ++ [0x17,3]) =
    .ok out ∧ out.isTls = true ∧ out.isClientHello = true ∧
      out.sni (askingHello.encode ++ [0x17,3]) = [0x61,0x62] :=
  parseClientHello_encode askingHello
    ⟨by decide,[⟨10,[0,29],by decide,by decide⟩],[],_,[],by decide,rfl,by decide,rfl⟩ (by decide)
    [0x17,3]

end Aethon.Tls
