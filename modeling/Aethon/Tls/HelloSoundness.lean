import Aethon.Tls.HelloRoundTrip

/-!
# Soundness of the ClientHello parser

A server name should come from the first record alone, from an entry inside its list. The parser
bounds its reads by the buffer and by the end of the extension list, so both hold exactly where
the length fields are consistent.
-/

namespace Aethon.Tls

open Framework

variable {p : List UInt8}

/-- The name is a host_name entry inside the server name list of the first server_name extension
of a ClientHello that the record contains. -/
def NamedIn (record name : List UInt8) : Prop :=
  ∃ (f : HelloFields) (exts : List Extension) (data entries padding rest : List UInt8)
    (hdata : data.length < 65536), f.encode <+: record ∧
      (∀ e ∈ exts, e.type ≠ tlsExtServerName) ∧ data = hostList name entries ++ padding ∧
      f.extensions = encodeExtensions exts ++ (serverName data hdata).encode ++ rest

/-- The first record of a buffer, as its length field gives it. -/
def firstRecord (p : List UInt8) : List UInt8 := p.take (5 + recordLen p)

/-- The name stands in the first record, and bytes behind the record do not change the result. -/
structure Sound (p : List UInt8) (out : TlsParseResult) : Prop where
  named : NamedIn (firstRecord p) (out.sni p)
  stable : ∀ tail, parseClientHello (firstRecord p ++ tail) = .ok out ∧
    out.sni (firstRecord p ++ tail) = out.sni p

section Lengths

/-- A 16-bit length field of the buffer. -/
def field16 (p : List UInt8) (pos : Nat) : Nat := beValue (p.getD pos 0) (p.getD (pos + 1) 0)

/-- The position behind the length of the extension list. -/
def extensionsStart (p : List UInt8) : Nat :=
  let ciphers := 44 + (p.getD 43 0).toNat
  let compression := ciphers + 2 + field16 p ciphers
  compression + 1 + (p.getD compression 0).toNat + 2

/-- The end of the extension list. -/
def extensionsStop (p : List UInt8) : Nat :=
  extensionsStart p + field16 p (extensionsStart p - 2)

/-- The extension list ends inside the record, and in the first server_name extension the name
fits into its list. -/
structure ConsistentLengths (p : List UInt8) : Prop where
  record : extensionsStop p ≤ 5 + recordLen p
  entry : ∀ (exts : List Extension) (data more : List UInt8) (hdata : data.length < 65536)
    (listLen nameLen : Nat), (∀ e ∈ exts, e.type ≠ tlsExtServerName) →
    StandsAt p (extensionsStart p) (encodeExtensions exts ++ (serverName data hdata).encode) →
    extensionsStart p + (encodeExtensions exts).length + 4 + data.length ≤ extensionsStop p →
    listLen < 65536 → nameLen < 65536 → data = listStart listLen nameLen ++ more →
    3 + nameLen ≤ listLen

theorem getD_of_standsAt {pos : Nat} {b : UInt8} (h : StandsAt p pos [b]) : p.getD pos 0 = b := by
  rw [List.getD_eq_getElem?_getD,standsAt_byte.mp h]
  rfl

theorem field16_of_standsAt {pos n : Nat} (hn : n < 65536) (h : StandsAt p pos (u16Be n)) :
    field16 p pos = n := by
  obtain ⟨hhi,hlo⟩ := standsAt_append.mp
    (show StandsAt p pos ([UInt8.ofNat (n / 256)] ++ [UInt8.ofNat (n % 256)]) from h)
  rw [field16,getD_of_standsAt hhi,getD_of_standsAt (show StandsAt p (pos + 1) _ from hlo)]
  exact beValue_u16Be hn

variable {f : HelloFields}

theorem FieldsAt.recordLen_eq (h : FieldsAt p f) : recordLen p = f.recordLen :=
  field16_of_standsAt f.recordLen_lt h.start.2.2.1

theorem FieldsAt.extensionsStart_eq (h : FieldsAt p f) :
    extensionsStart p = f.extensionsPos + 2 := by
  have h1 : 44 + (p.getD 43 0).toNat = f.ciphersPos := by
    rw [getD_of_standsAt (standsAt_vec8.mp h.sessionId).1,toNat_length8 f.sessionId_lt,
      HelloFields.ciphersPos]
    omega
  have h2 : f.ciphersPos + 2 + field16 p f.ciphersPos = f.compressionPos := by
    rw [field16_of_standsAt f.cipherSuites_lt (standsAt_vec16.mp h.cipherSuites).1,
      HelloFields.compressionPos]
    omega
  have h3 : f.compressionPos + 1 + (p.getD f.compressionPos 0).toNat = f.extensionsPos := by
    rw [getD_of_standsAt (standsAt_vec8.mp h.compression).1,toNat_length8 f.compression_lt,
      HelloFields.extensionsPos]
    omega
  simp only [extensionsStart,h1,h2,h3]

theorem FieldsAt.extensionsStop_eq (h : FieldsAt p f) : extensionsStop p = f.stop := by
  rw [extensionsStop,h.extensionsStart_eq,Nat.add_sub_cancel,
    field16_of_standsAt f.extensions_lt (standsAt_vec16.mp h.extensions).1]
  rfl

end Lengths

section Named

variable {f : HelloFields} {exts : List Extension} {data : List UInt8}
  {hdata : data.length < 65536} {listLen nameLen : Nat}

/-- The first server_name extension of a hello, as the parser takes a name from it. -/
structure NameAt (p : List UInt8) (f : HelloFields) (exts : List Extension) (data : List UInt8)
    (hdata : data.length < 65536) (listLen nameLen : Nat) : Prop where
  fields : FieldsAt p f
  record : 5 + f.recordLen ≤ p.length
  other : ∀ e ∈ exts, e.type ≠ tlsExtServerName
  stands : StandsAt p (f.extensionsPos + 2) (encodeExtensions exts ++ (serverName data hdata).encode)
  inside : f.extensionsPos + 2 + (encodeExtensions exts).length + 4 + data.length ≤ f.stop
  takes : TakesName p f.stop (f.extensionsPos + 2 + (encodeExtensions exts).length + 4)
    data.length listLen nameLen

theorem NameAt.parse (h : NameAt p f exts data hdata listLen nameLen) :
    parseClientHello p = .ok
      ⟨true,true,f.extensionsPos + 2 + (encodeExtensions exts).length + 4 + 5,nameLen⟩ := by
  have hfuel := h.fields.stop_le
  rw [parseClientHello_fields h.fields h.record,
    parseExtensions_first h.other h.stands h.inside (by omega),h.takes.parse]

theorem exists_nameAt {out : TlsParseResult} (hparse : parseClientHello p = .ok out)
    (hsni : 0 < out.sniLen) :
    ∃ f exts data hdata listLen, NameAt p f exts data hdata listLen out.sniLen := by
  obtain ⟨f,hfields,hrecord⟩ := exists_fields hparse hsni
  have hstop := hfields.stop_le
  rw [parseClientHello_fields hfields hrecord] at hparse
  obtain ⟨exts,data,hdata,hother,hat,hinside,hrun⟩ := exists_serverName hstop hparse rfl hsni
  obtain ⟨listLen,htakes,_⟩ := exists_takesName (by omega) hrun rfl hsni
  exact ⟨f,exts,data,hdata,listLen,hfields,hrecord,hother,hat,hinside,htakes⟩

/-- Bytes behind the extension list do not matter. -/
theorem NameAt.transfer (h : NameAt p f exts data hdata listLen nameLen) {q : List UInt8} {m : Nat}
    (hstop : f.stop ≤ m) (hq : p.take m <+: q) (hrecord : 5 + f.recordLen ≤ q.length) :
    NameAt q f exts data hdata listLen nameLen := by
  have hlen : (serverName data hdata).encode.length = 4 + data.length :=
    (serverName data hdata).encode_length
  have hin := h.inside
  have hext := h.takes.extension
  refine ⟨?_,hrecord,h.other,h.stands.transfer ?_ hq,h.inside,
    { h.takes with start := h.takes.start.transfer ?_ hq }⟩
  · refine fieldsAt_iff.mpr ((fieldsAt_iff.mp h.fields).transfer ?_ hq)
    rw [f.encode_length]
    omega
  · rw [List.length_append,hlen]
    omega
  · have hstart : (listStart listLen nameLen).length = 5 := rfl
    omega

/-- The payload of the extension starts with the list that the parser reads. -/
theorem NameAt.data_eq (h : NameAt p f exts data hdata listLen nameLen) :
    data = listStart listLen nameLen ++ data.drop 5 := by
  obtain ⟨_,_,hdata'⟩ := standsAt_extension (standsAt_append.mp h.stands).2
  have hext := h.takes.extension
  have hstart : listStart listLen nameLen <+: data :=
    List.prefix_of_prefix_length_le h.takes.start hdata' hext
  obtain ⟨rest,hrest⟩ := hstart
  conv_lhs => rw [← hrest]
  rw [← hrest]
  rfl

/-- The name stands behind the five bytes of the list's start. -/
theorem NameAt.name (h : NameAt p f exts data hdata listLen nameLen) :
    StandsAt p (f.extensionsPos + 2 + (encodeExtensions exts).length + 4 + 5)
      ((data.drop 5).take nameLen) := by
  obtain ⟨_,_,hdata'⟩ := standsAt_extension (standsAt_append.mp h.stands).2
  rw [show (serverName data hdata).data = _ from h.data_eq,standsAt_append] at hdata'
  exact (List.take_prefix _ _).trans hdata'.2

/-- The extension list goes on behind the extension. -/
theorem NameAt.exists_rest (h : NameAt p f exts data hdata listLen nameLen) :
    ∃ rest, f.extensions = encodeExtensions exts ++ (serverName data hdata).encode ++ rest := by
  have hlen : (serverName data hdata).encode.length = 4 + data.length :=
    (serverName data hdata).encode_length
  have hin := h.inside
  have hlist := (standsAt_vec16.mp h.fields.extensions).2
  obtain ⟨rest,hrest⟩ := List.prefix_of_prefix_length_le h.stands hlist (by
    rw [List.length_append,hlen]
    rw [HelloFields.stop] at hin
    omega)
  exact ⟨rest,hrest.symm⟩

/-- A name that fits into its list is the first entry of the list. -/
theorem NameAt.exists_hostList (h : NameAt p f exts data hdata listLen nameLen)
    (hfits : 3 + nameLen ≤ listLen) :
    ((data.drop 5).take nameLen).length = nameLen ∧ ∃ entries padding,
      data = hostList ((data.drop 5).take nameLen) entries ++ padding := by
  have hlist := h.takes.list
  have hname : ((data.drop 5).take nameLen).length = nameLen := by
    rw [List.length_take,List.length_drop]
    omega
  have hentries : (((data.drop 5).drop nameLen).take (listLen - 3 - nameLen)).length =
      listLen - 3 - nameLen := by
    rw [List.length_take,List.length_drop,List.length_drop]
    omega
  refine ⟨hname,((data.drop 5).drop nameLen).take (listLen - 3 - nameLen),
    ((data.drop 5).drop nameLen).drop (listLen - 3 - nameLen),?_⟩
  have hlen : 3 + nameLen + (listLen - 3 - nameLen) = listLen := by omega
  rw [hostList_eq,hname,hentries,hlen,List.append_assoc,List.append_assoc,List.take_append_drop,
    List.take_append_drop]
  exact h.data_eq

/-- The parser takes the name of whatever stands as the first server_name extension. -/
theorem name_of_stands {out : TlsParseResult} (hfields : FieldsAt p f)
    (hrecord : 5 + f.recordLen ≤ p.length) (hparse : parseClientHello p = .ok out)
    (hsni : 0 < out.sniLen) (hother : ∀ e ∈ exts, e.type ≠ tlsExtServerName)
    (hat : StandsAt p (f.extensionsPos + 2)
      (encodeExtensions exts ++ (serverName data hdata).encode))
    (hinside : f.extensionsPos + 2 + (encodeExtensions exts).length + 4 + data.length ≤ f.stop)
    {more : List UInt8} (hname : nameLen < 65536)
    (hdata' : data = listStart listLen nameLen ++ more) :
    out.sniPos = f.extensionsPos + 2 + (encodeExtensions exts).length + 4 + 5 ∧
      out.sniLen = nameLen ∧
      StandsAt p (f.extensionsPos + 2 + (encodeExtensions exts).length + 4) (u16Be listLen) := by
  have hstop := hfields.stop_le
  have hrun := hparse
  rw [parseClientHello_fields hfields hrecord,
    parseExtensions_first hother hat hinside (by omega)] at hrun
  obtain ⟨listLen',htakes,hpos⟩ := exists_takesName (by omega) hrun rfl hsni
  obtain ⟨_,_,hstart⟩ := standsAt_extension (standsAt_append.mp hat).2
  rw [show (serverName data hdata).data = _ from hdata',standsAt_append] at hstart
  obtain ⟨hl,_,hn⟩ := standsAt_listStart.mp hstart.1
  obtain ⟨_,_,hn'⟩ := standsAt_listStart.mp htakes.start
  exact ⟨hpos,u16Be_inj htakes.name_lt hname (hn'.unique hn rfl),hl⟩

end Named

section Soundness

variable {out : TlsParseResult}

/-- A sound result comes from consistent length fields. -/
theorem Sound.consistent (h : Sound p out) (hparse : parseClientHello p = .ok out)
    (hsni : 0 < out.sniLen) : ConsistentLengths p := by
  obtain ⟨f,exts,data,entries,padding,rest,hdata,hstart,hother,hentry,hexts⟩ := h.named
  obtain ⟨hwhole,hlen⟩ := List.prefix_take_iff.mp hstart
  have hfields : FieldsAt p f := fieldsAt_iff.mpr hwhole
  have hstop := hfields.stop_le
  have hrecord : 5 + f.recordLen ≤ p.length := by
    obtain ⟨f',hfields',hrecord'⟩ := exists_fields hparse hsni
    rwa [← hfields.recordLen_eq,hfields'.recordLen_eq]
  have hlist := (standsAt_vec16.mp hfields.extensions).2
  rw [hexts,standsAt_append] at hlist
  have hext : (serverName data hdata).encode.length = 4 + data.length :=
    (serverName data hdata).encode_length
  have hinside : f.extensionsPos + 2 + (encodeExtensions exts).length + 4 + data.length ≤ f.stop := by
    have hl := congrArg List.length hexts
    simp only [List.length_append,hext] at hl
    rw [HelloFields.stop]
    omega
  have hsize : data.length = 5 + (out.sni p).length + entries.length + padding.length := by
    simp only [hentry,hostList,vec16_length,List.length_append,List.length_cons]
    omega
  rw [hostList_eq,List.append_assoc] at hentry
  obtain ⟨hpos,hname,hlistAt⟩ := name_of_stands hfields hrecord hparse hsni hother hlist.1 hinside
    (by omega) hentry
  refine ⟨?_,?_⟩
  · rw [hfields.extensionsStop_eq,← f.encode_length]
    exact hlen
  · intro exts' data' more hdata' listLen nameLen hother' hat' hinside' hlt hlt' heq
    rw [hfields.extensionsStart_eq] at hat' hinside'
    rw [hfields.extensionsStop_eq] at hinside'
    obtain ⟨hpos',hname',hlistAt'⟩ := name_of_stands hfields hrecord hparse hsni hother' hat'
      hinside' hlt' heq
    have hsame : f.extensionsPos + 2 + (encodeExtensions exts').length + 4 =
        f.extensionsPos + 2 + (encodeExtensions exts).length + 4 := by omega
    rw [hsame] at hlistAt'
    have := u16Be_inj hlt (by omega) (hlistAt'.unique hlistAt rfl)
    omega

/-- Consistent length fields give a sound result. -/
theorem ConsistentLengths.sound (h : ConsistentLengths p) (hparse : parseClientHello p = .ok out)
    (hsni : 0 < out.sniLen) : Sound p out := by
  obtain ⟨f,exts,data,hdata,listLen,hname⟩ := exists_nameAt hparse hsni
  have hstop : f.stop ≤ 5 + recordLen p := by
    rw [← hname.fields.extensionsStop_eq]
    exact h.record
  have hdataEq := hname.data_eq
  have hfits : 3 + out.sniLen ≤ listLen := by
    refine h.entry exts data (data.drop 5) hdata listLen out.sniLen hname.other ?_ ?_
      hname.takes.list_lt hname.takes.name_lt hdataEq
    · rw [hname.fields.extensionsStart_eq]
      exact hname.stands
    · rw [hname.fields.extensionsStart_eq,hname.fields.extensionsStop_eq]
      exact hname.inside
  have hout := hparse.symm.trans hname.parse
  injection hout with hout
  have hwhole : f.encode <+: firstRecord p :=
    List.prefix_take_iff.mpr ⟨fieldsAt_iff.mp hname.fields,by rw [f.encode_length]; exact hstop⟩
  obtain ⟨hlen,entries,padding,hlist⟩ := hname.exists_hostList hfits
  have hsni : out.sni p = (data.drop 5).take out.sniLen :=
    sni_eq hname.name (congrArg TlsParseResult.sniPos hout) hlen.symm
  refine ⟨?_,fun tail => ?_⟩
  · obtain ⟨rest,hrest⟩ := hname.exists_rest
    rw [hsni]
    exact ⟨f,exts,data,entries,padding,rest,hdata,hwhole,hname.other,hlist,hrest⟩
  · have htail : p.take (5 + recordLen p) <+: firstRecord p ++ tail := List.prefix_append _ _
    have hname' := hname.transfer hstop htail (by
      rw [← hname.fields.recordLen_eq,List.length_append,firstRecord,List.length_take,
        hname.fields.recordLen_eq]
      have := hname.record
      omega)
    refine ⟨hname'.parse.trans (congrArg _ hout.symm),?_⟩
    rw [hsni]
    exact sni_eq hname'.name (congrArg TlsParseResult.sniPos hout) hlen.symm

/-- A server name that the parser finds is the first record's own, inside its list, exactly where
the length fields of the hello are consistent. -/
theorem sound_iff_consistentLengths (hparse : parseClientHello p = .ok out)
    (hsni : 0 < out.sniLen) : Sound p out ↔ ConsistentLengths p :=
  ⟨fun h => h.consistent hparse hsni,fun h => h.sound hparse hsni⟩

theorem sound_iff_consistentLengths_asking :
    Sound askingHello.encode ⟨true,true,67,2⟩ ↔ ConsistentLengths askingHello.encode :=
  sound_iff_consistentLengths (by decide +kernel) (by decide)

end Soundness

/-- The sample hello with a record length of one: the record ends behind the message type. -/
def shortRecord : List UInt8 := sampleHello.set 3 0 |>.set 4 1

/-- The name of a hello whose record ends before it comes from the bytes behind the record. -/
theorem name_behind_record : ∃ out, parseClientHello shortRecord = .ok out ∧ 0 < out.sniLen ∧
    ¬ Sound shortRecord out := by
  refine ⟨⟨true,true,61,2⟩,by decide +kernel,by decide,fun h => ?_⟩
  have hrun : parseClientHello (firstRecord shortRecord ++ []) = .ok ⟨false,false,0,0⟩ := by
    decide +kernel
  rw [(h.stable []).1] at hrun
  cases hrun

end Aethon.Tls
