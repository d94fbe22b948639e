import Aethon.Net.Agreement

/-!
# Emitted frames

Every frame that is built parses back to what the builder was asked for, and its IPv4 and TCP or
ICMP checksums hold.
-/

namespace Aethon.Net

open Framework

/-- What a receiver reads in a TCP frame. -/
structure TcpView where
  etherDhost : BitVec 48
  etherShost : BitVec 48
  saddr : BitVec 32
  daddr : BitVec 32
  source : BitVec 16
  dest : BitVec 16
  seq : BitVec 32
  ackSeq : BitVec 32
  flags : BitVec 8
  window : Nat
  payload : List UInt8

def viewTcp (pkt : Nat → UInt8) : TcpView where
  etherDhost := etherDhost pkt
  etherShost := etherShost pkt
  saddr := saddr pkt
  daddr := daddr pkt
  source := tcpSource pkt (tcphOf pkt)
  dest := tcpDest pkt (tcphOf pkt)
  seq := tcpSeq pkt (tcphOf pkt)
  ackSeq := tcpAckSeq pkt (tcphOf pkt)
  flags := tcpFlags pkt (tcphOf pkt)
  window := tcpWindow pkt (tcphOf pkt)
  payload := (tcpPacketOf pkt).payload

/-- The frame is an IPv4 frame with a valid header checksum, and ends with its datagram. -/
structure ValidIpv4 (bytes : List UInt8) : Prop where
  etherType : etherType (bufferOf bytes) = etherTypeIp
  ipChecksum : isValidIpv4Checksum (bufferOf bytes) = true
  length : etherHeaderLen + totLen (bufferOf bytes) ≤ bytes.length

/-- The frame is a valid TCP segment that reads as `v`. -/
structure ValidTcp (bytes : List UInt8) (v : TcpView) : Prop extends ValidIpv4 bytes where
  protocol : protocol (bufferOf bytes) = ipprotoTcp
  tcpChecksum : onesSum (pseudoHeader (saddr (bufferOf bytes)) (daddr (bufferOf bytes))
    (ipPayload (bufferOf bytes)).length ++ ipPayload (bufferOf bytes)) = 0xFFFF
  view : viewTcp (bufferOf bytes) = v

namespace Segment

variable (s : Segment)

/-- What the segment should read as. -/
def view : TcpView where
  etherDhost := s.clientMac
  etherShost := s.serverMac
  saddr := s.serverIp
  daddr := s.clientIp
  source := s.serverPort
  dest := s.clientPort
  seq := BitVec.ofNat 32 (beNat s.seq)
  ackSeq := BitVec.ofNat 32 (beNat s.ackSeq)
  flags := s.flags
  window := s.window
  payload := s.payload

def etherBytes : List UInt8 :=
  leBytes 6 s.clientMac.toNat ++ (leBytes 6 s.serverMac.toNat ++ beBytes 2 etherTypeIp)

def ipBytes : List UInt8 := ipHeader (20 + 20 + s.payload.length) s.serverIp s.clientIp

def ipCheck : Nat := ipv4ComputeChecksum s.ipBytes

def tcpCheck : Nat := ipv4TcpComputeChecksum s.serverIp s.clientIp (tcpHeader s ++ s.payload)

/-- The IPv4 header with its checksum. -/
def checkedIp : List UInt8 := s.ipBytes.take 10 ++ (beBytes 2 s.ipCheck ++ s.ipBytes.drop 12)

/-- The TCP header with its checksum. -/
def checkedTcp : List UInt8 :=
  (tcpHeader s).take 16 ++ (beBytes 2 s.tcpCheck ++ (tcpHeader s).drop 18)

/-- The fields of the sequence numbers are four bytes each, and the rest fits its fields. -/
structure Fits : Prop where
  seq : s.seq.length = 4
  ackSeq : s.ackSeq.length = 4
  window : s.window < 65536
  payload : s.payload.length ≤ 1460

end Segment

section Build

variable {s : Segment} (pkt : Nat → UInt8)

theorem ofNat_leNat_leBytes {w n : Nat} (x : BitVec w) (h : 2 ^ w = 256 ^ n) :
    BitVec.ofNat w (leNat (leBytes n x.toNat)) = x := by
  rw [leNat_leBytes,← h,Nat.mod_eq_of_lt x.isLt,BitVec.ofNat_toNat,BitVec.setWidth_eq]

theorem tcpHeader_length (h : s.Fits) : (tcpHeader s).length = 20 := by
  simp [tcpHeader,h.seq,h.ackSeq]

theorem readBytes_writeEther :
    readBytes (writeEther pkt s.clientMac s.serverMac) 0 14 = s.etherBytes := by
  have hdst : readBytes (writeEther pkt s.clientMac s.serverMac) 0 6 =
      leBytes 6 s.clientMac.toNat := by
    rw [writeEther,readBytes_store_other _ _ (by simp),readBytes_store_other _ _ (by simp),
      readBytes_stored _ (leBytes_length ..)]
  have hsrc : readBytes (writeEther pkt s.clientMac s.serverMac) 6 6 =
      leBytes 6 s.serverMac.toNat := by
    rw [writeEther,readBytes_store_other _ _ (by simp),readBytes_stored _ (leBytes_length ..)]
  have htype : readBytes (writeEther pkt s.clientMac s.serverMac) 12 2 = beBytes 2 etherTypeIp := by
    rw [writeEther,readBytes_stored _ (beBytes_length ..)]
  rw [show 14 = 6 + (6 + 2) from rfl,readBytes_add,readBytes_add,hdst,hsrc,htype,Segment.etherBytes]

theorem readBytes_writeIph :
    readBytes (writeIph pkt (20 + 20 + s.payload.length) s.serverIp s.clientIp) 14 20 =
      s.checkedIp := by
  have hheader : readBytes (storeBytes pkt 14 s.ipBytes) 14 20 = s.ipBytes :=
    readBytes_stored _ rfl
  change readBytes (storeBytes (storeBytes pkt 14 s.ipBytes) 24 (beBytes 2 (ipv4ComputeChecksum
    (readBytes (storeBytes pkt 14 s.ipBytes) 14 20)))) 14 20 = s.checkedIp
  rw [readBytes_store_around _ _ (by decide) (by simp),hheader]
  rfl

theorem readBytes_writeIph_other {start n : Nat} (h : start + n ≤ 14 ∨ 34 ≤ start) (len : Nat)
    (src dst : BitVec 32) :
    readBytes (writeIph pkt len src dst) start n = readBytes pkt start n := by
  have hlen : (ipHeader len src dst).length = 20 := rfl
  rw [writeIph,readBytes_store_other _ _ (by simp; omega),
    readBytes_store_other _ _ (by rw [hlen]; omega)]

theorem readBytes_writeTcph_other {start n : Nat} (h : s.Fits) (hbefore : start + n ≤ 34) :
    readBytes (writeTcph pkt s) start n = readBytes pkt start n := by
  have hlen := tcpHeader_length h
  rw [writeTcph,readBytes_store_other _ _ (by omega),readBytes_store_other _ _ (by omega),
    readBytes_store_other _ _ (by omega)]

/-- The TCP part, over an IPv4 header with the addresses of the segment. -/
theorem readBytes_writeTcph (h : s.Fits) (hsrc : u32At pkt 26 = s.serverIp)
    (hdst : u32At pkt 30 = s.clientIp) :
    readBytes (writeTcph pkt s) 34 (20 + s.payload.length) = s.checkedTcp ++ s.payload := by
  have hlen := tcpHeader_length h
  have hbody : readBytes (storeBytes (storeBytes pkt 34 (tcpHeader s)) 54 s.payload) 34
      (20 + s.payload.length) = tcpHeader s ++ s.payload := by
    rw [readBytes_add,readBytes_store_other _ _ (by omega),readBytes_stored _ hlen,
      readBytes_stored _ rfl]
  have haddr : ∀ i, i + 4 ≤ 34 →
      u32At (storeBytes (storeBytes pkt 34 (tcpHeader s)) 54 s.payload) i = u32At pkt i := by
    intro i hi
    rw [u32At,readBytes_store_other _ _ (by omega),readBytes_store_other _ _ (by omega),← u32At]
  have hcheck : ipv4TcpComputeChecksum
      (u32At (storeBytes (storeBytes pkt 34 (tcpHeader s)) 54 s.payload) 26)
      (u32At (storeBytes (storeBytes pkt 34 (tcpHeader s)) 54 s.payload) 30)
      (readBytes (storeBytes (storeBytes pkt 34 (tcpHeader s)) 54 s.payload) 34
        (20 + s.payload.length)) = s.tcpCheck := by
    rw [hbody,haddr 26 (by decide),haddr 30 (by decide),hsrc,hdst,Segment.tcpCheck]
  rw [writeTcph,hcheck,readBytes_store_around _ _ (by decide) (by simp; omega),hbody]
  have htake : (tcpHeader s ++ s.payload).take 16 = (tcpHeader s).take 16 :=
    List.take_append_of_le_length (by omega)
  have hdrop : (tcpHeader s ++ s.payload).drop 18 = (tcpHeader s).drop 18 ++ s.payload :=
    List.drop_append_of_le_length (by omega)
  rw [Segment.checkedTcp,List.append_assoc,List.append_assoc]
  change (tcpHeader s ++ s.payload).take 16 ++ (beBytes 2 s.tcpCheck ++
    (tcpHeader s ++ s.payload).drop 18) = _
  rw [htake,hdrop]

/-- The bytes of a segment. -/
theorem buildSegment_bytes (h : s.Fits) :
    (buildSegment pkt s).bytes = s.etherBytes ++ (s.checkedIp ++ (s.checkedTcp ++ s.payload)) := by
  have haddr : ∀ i, 26 ≤ i → i + 4 ≤ 34 → ∀ m : Nat → UInt8,
      readBytes (writeIph m (20 + 20 + s.payload.length) s.serverIp s.clientIp) i 4 =
        (s.checkedIp.drop (i - 14)).take 4 := by
    intro i hi hi' m
    rw [← readBytes_writeIph m,drop_take_readBytes _ _ _ _ _ (by omega)]
    congr 1
    omega
  have hsrc : ∀ m : Nat → UInt8,
      u32At (writeIph m (20 + 20 + s.payload.length) s.serverIp s.clientIp) 26 = s.serverIp := by
    intro m
    rw [u32At,haddr 26 (by decide) (by decide)]
    exact ofNat_leNat_leBytes (n := 4) s.serverIp rfl
  have hdst : ∀ m : Nat → UInt8,
      u32At (writeIph m (20 + 20 + s.payload.length) s.serverIp s.clientIp) 30 = s.clientIp := by
    intro m
    rw [u32At,haddr 30 (by decide) (by decide)]
    exact ofNat_leNat_leBytes (n := 4) s.clientIp rfl
  change readBytes (writeTcph _ s) 0 (14 + 20 + 20 + s.payload.length) = _
  rw [show 14 + 20 + 20 + s.payload.length = 14 + (20 + (20 + s.payload.length)) by omega,
    readBytes_add,readBytes_add,readBytes_writeTcph_other _ h (by decide),
    readBytes_writeTcph_other _ h (by decide),readBytes_writeTcph _ h (hsrc _) (hdst _),
    readBytes_writeIph_other _ (Or.inl le_rfl),readBytes_writeEther,readBytes_writeIph]

/-- The frame that the bytes of a segment are. -/
def Segment.buffer (s : Segment) : Nat → UInt8 :=
  bufferOf (s.etherBytes ++ (s.checkedIp ++ (s.checkedTcp ++ s.payload)))

theorem four_bytes {bytes : List UInt8} (h : bytes.length = 4) : ∃ a b c d, bytes = [a,b,c,d] := by
  match bytes, h with
  | [a,b,c,d], _ => exact ⟨a,b,c,d,rfl⟩

theorem readBytes_etherBytes (s : Segment) {i n : Nat} (h : i + n ≤ 14) :
    readBytes s.buffer i n = (s.etherBytes.drop i).take n := by
  have hether : s.etherBytes.length = 14 := rfl
  have hall : readBytes s.buffer 0 14 = s.etherBytes := by
    rw [Segment.buffer,readBytes_bufferOf_drop _ (by simp only [List.length_append,hether]; omega),
      List.drop_zero,List.take_left' hether]
  rw [← hall,drop_take_readBytes _ _ _ _ _ h,Nat.zero_add]

theorem readBytes_checkedIp (s : Segment) {i n : Nat} (h : i + n ≤ 20) :
    readBytes s.buffer (14 + i) n = (s.checkedIp.drop i).take n := by
  have hip : s.checkedIp.length = 20 := rfl
  have hether : s.etherBytes.length = 14 := rfl
  have hall : readBytes s.buffer 14 20 = s.checkedIp := by
    rw [Segment.buffer,readBytes_bufferOf_drop _ (by simp only [List.length_append,hip,hether]; omega),
      List.drop_left' hether,List.take_left' hip]
  rw [← hall,drop_take_readBytes _ _ _ _ _ h]

theorem readBytes_checkedTcp (h : s.Fits) {i n : Nat} (hin : i + n ≤ 20) :
    readBytes s.buffer (34 + i) n = (s.checkedTcp.drop i).take n := by
  have hip : s.checkedIp.length = 20 := rfl
  have hether : s.etherBytes.length = 14 := rfl
  have htcp : s.checkedTcp.length = 20 := by
    simp [Segment.checkedTcp,tcpHeader_length h]
  have hall : readBytes s.buffer 34 20 = s.checkedTcp := by
    rw [Segment.buffer,← List.append_assoc,readBytes_bufferOf_drop _
        (by simp only [List.length_append,hip,hether,htcp]; omega),
      List.drop_left' (by simp only [List.length_append,hip,hether]),List.take_left' htcp]
  rw [← hall,drop_take_readBytes _ _ _ _ _ hin]

theorem segment_headers (s : Segment) :
    etherType s.buffer = etherTypeIp ∧ ihl s.buffer = 5 ∧ protocol s.buffer = ipprotoTcp ∧
      readBytes s.buffer 14 20 = s.checkedIp ∧
      readBytes s.buffer 16 2 = beBytes 2 (20 + 20 + s.payload.length) := by
  have hfirst : s.buffer 14 = 0x45 := rfl
  have hproto : s.buffer 23 = 6 := rfl
  have hip := readBytes_checkedIp s (i := 0) (n := 20) (by decide)
  have hlen := readBytes_checkedIp s (i := 2) (n := 2) (by decide)
  refine ⟨rfl,?_,?_,hip,hlen⟩
  · rw [ihl,hfirst]
    rfl
  · rw [protocol,hproto]
    rfl

theorem segment_totLen (h : s.Fits) : totLen s.buffer = 20 + 20 + s.payload.length := by
  have hlen := h.payload
  rw [totLen,ntohsAt,(segment_headers s).2.2.2.2,beNat_beBytes]
  exact Nat.mod_eq_of_lt (by omega)

theorem segment_payload (h : s.Fits) : ipPayload s.buffer = s.checkedTcp ++ s.payload := by
  have hihl := (segment_headers s).2.1
  have htcp : s.checkedTcp.length = 20 := by
    simp [Segment.checkedTcp,tcpHeader_length h]
  have hip : s.checkedIp.length = 20 := rfl
  have hether : s.etherBytes.length = 14 := rfl
  rw [ipPayload,tcphOf,ipHdrLen,hihl,segment_totLen h,Segment.buffer,readBytes_bufferOf_drop]
  · rw [← List.append_assoc,List.drop_left' (by simp [hip,hether,etherHeaderLen])]
    exact List.take_of_length_le (by simp [htcp]; omega)
  · simp [htcp,hip,hether,etherHeaderLen]
    omega

theorem ip_checked (s : Segment) : onesSum s.checkedIp = 65535 := by
  have hsplit : s.ipBytes = s.ipBytes.take 10 ++ ([0,0] ++ s.ipBytes.drop 12) := rfl
  have hlen : s.ipBytes.length = 20 := rfl
  have hcheck : s.ipCheck =
      complement (addWords (addWords 0 []) (s.ipBytes.take 10 ++ ([0,0] ++ s.ipBytes.drop 12))) := by
    rw [← hsplit]
    rfl
  have h := onesSum_checked rfl (by simp [hlen]) (by simp [hlen]) hcheck
  rw [List.nil_append] at h
  rw [Segment.checkedIp]
  exact h

theorem tcp_checked (h : s.Fits) :
    onesSum (pseudoHeader s.serverIp s.clientIp (s.checkedTcp ++ s.payload).length ++
      (s.checkedTcp ++ s.payload)) = 65535 := by
  have hlen := tcpHeader_length h
  have hpay := h.payload
  obtain ⟨a,b,c,d,hseq⟩ := four_bytes h.seq
  obtain ⟨a',b',c',d',hack⟩ := four_bytes h.ackSeq
  have hsplit : tcpHeader s = (tcpHeader s).take 16 ++ ([0,0] ++ (tcpHeader s).drop 18) := by
    simp only [tcpHeader,hseq,hack]
    rfl
  have hsame : (s.checkedTcp ++ s.payload).length = (tcpHeader s ++ s.payload).length := by
    simp [Segment.checkedTcp,hlen]
    omega
  have hpseudo : ∀ n, (pseudoHeader s.serverIp s.clientIp n).length = 12 := fun _ => rfl
  have hcheck : s.tcpCheck = complement (addWords (addWords 0 (pseudoHeader s.serverIp s.clientIp
      (s.checkedTcp ++ s.payload).length)) ((tcpHeader s).take 16 ++
        ([0,0] ++ ((tcpHeader s).drop 18 ++ s.payload)))) := by
    have hbody : (tcpHeader s).take 16 ++ ([0,0] ++ ((tcpHeader s).drop 18 ++ s.payload)) =
        tcpHeader s ++ s.payload := by
      conv => rhs; rw [hsplit]
      simp only [List.append_assoc]
    rw [hbody,hsame]
    rfl
  have hsum := onesSum_checked (by simp [hpseudo]) (by simp [hlen])
    (by simp [hpseudo,hlen]; omega) hcheck
  rw [← hsum,Segment.checkedTcp]
  simp only [List.append_assoc]

theorem segment_addresses (s : Segment) :
    etherDhost s.buffer = s.clientMac ∧ etherShost s.buffer = s.serverMac ∧
      saddr s.buffer = s.serverIp ∧ daddr s.buffer = s.clientIp := by
  have hdhost : readBytes s.buffer 0 6 = leBytes 6 s.clientMac.toNat :=
    readBytes_etherBytes s (i := 0) (n := 6) (by decide)
  have hshost : readBytes s.buffer 6 6 = leBytes 6 s.serverMac.toNat :=
    readBytes_etherBytes s (i := 6) (n := 6) (by decide)
  have hsaddr : readBytes s.buffer 26 4 = leBytes 4 s.serverIp.toNat :=
    readBytes_checkedIp s (i := 12) (n := 4) (by decide)
  have hdaddr : readBytes s.buffer 30 4 = leBytes 4 s.clientIp.toNat :=
    readBytes_checkedIp s (i := 16) (n := 4) (by decide)
  rw [etherDhost,etherShost,saddr,daddr,macAt,macAt,u32At,u32At,hdhost,hshost,hsaddr,hdaddr]
  exact ⟨ofNat_leNat_leBytes _ rfl,ofNat_leNat_leBytes _ rfl,ofNat_leNat_leBytes _ rfl,
    ofNat_leNat_leBytes _ rfl⟩

theorem segment_fields (h : s.Fits) :
    tcpSource s.buffer 34 = s.serverPort ∧ tcpDest s.buffer 34 = s.clientPort ∧
      tcpSeq s.buffer 34 = BitVec.ofNat 32 (beNat s.seq) ∧
      tcpAckSeq s.buffer 34 = BitVec.ofNat 32 (beNat s.ackSeq) ∧ tcpDoff s.buffer 34 = 5 ∧
      tcpFlags s.buffer 34 = s.flags ∧ tcpWindow s.buffer 34 = s.window := by
  have hread : ∀ {i n : Nat}, i + n ≤ 20 →
      readBytes s.buffer (34 + i) n = (s.checkedTcp.drop i).take n := readBytes_checkedTcp h
  obtain ⟨hseq,hack,hwindow,_⟩ := h
  obtain ⟨clientMac,serverMac,clientIp,serverIp,clientPort,serverPort,seq,ackSeq,flags,window,
    payload⟩ := s
  obtain ⟨a,b,c,d,rfl⟩ := four_bytes hseq
  obtain ⟨a',b',c',d',rfl⟩ := four_bytes hack
  have hsource := hread (i := 0) (n := 2) (by decide)
  have hdest := hread (i := 2) (n := 2) (by decide)
  have hseqs := hread (i := 4) (n := 4) (by decide)
  have hacks := hread (i := 8) (n := 4) (by decide)
  have hdoff := (List.cons.inj (hread (i := 12) (n := 1) (by decide))).1
  have hflags := (List.cons.inj (hread (i := 13) (n := 1) (by decide))).1
  have hwin := hread (i := 14) (n := 2) (by decide)
  refine ⟨?_,?_,?_,?_,?_,?_,?_⟩
  · rw [tcpSource,u16At,hsource]
    exact ofNat_leNat_leBytes (n := 2) serverPort rfl
  · rw [tcpDest,u16At,hdest]
    exact ofNat_leNat_leBytes (n := 2) clientPort rfl
  · rw [tcpSeq,ntohlAt,hseqs]
    rfl
  · rw [tcpAckSeq,ntohlAt,hacks]
    rfl
  · exact congrArg (fun b : UInt8 => b.toNat / 16) hdoff
  · exact congrArg UInt8.toBitVec hflags
  · rw [tcpWindow,ntohsAt,hwin]
    exact (beNat_beBytes 2 window).trans (Nat.mod_eq_of_lt hwindow)

/-- A built segment is valid and reads as it should. -/
theorem buildSegment_valid (h : s.Fits) : ValidTcp (buildSegment pkt s).bytes s.view := by
  obtain ⟨htype,hihl,hproto,hip,_⟩ := segment_headers s
  obtain ⟨hdhost,hshost,hsaddr,hdaddr⟩ := segment_addresses s
  obtain ⟨hsource,hdest,hseq,hack,hdoff,hflags,hwindow⟩ := segment_fields h
  have hlen := segment_totLen h
  have hbody := segment_payload h
  have htcph : tcphOf s.buffer = 34 := by rw [tcphOf,ipHdrLen,hihl]; rfl
  have hpayload : (tcpPacketOf s.buffer).payload = s.payload := by
    have hdata : 20 + 20 + s.payload.length - 20 = 20 + s.payload.length := by omega
    rw [ipPayload,htcph,ipHdrLen,hihl,hlen,hdata,readBytes_add] at hbody
    change readBytes s.buffer (tcphOf s.buffer + tcpHdrLen s.buffer)
      (totLen s.buffer - ipHdrLen s.buffer - tcpHdrLen s.buffer) = s.payload
    rw [tcpHdrLen,htcph,hdoff,ipHdrLen,hihl,hlen,hdata,Nat.add_sub_cancel_left]
    exact (List.append_inj hbody (by simp [Segment.checkedTcp,tcpHeader_length h])).2
  have hbytes := buildSegment_bytes pkt h
  have hend : (buildSegment pkt s).bytes.length = etherHeaderLen + totLen s.buffer := by
    rw [TxFrame.bytes,readBytes_length,hlen,etherHeaderLen]
    change 14 + 20 + 20 + s.payload.length = _
    omega
  rw [hbytes] at hend ⊢
  refine ⟨⟨htype,?_,hend.ge⟩,hproto,?_,?_⟩
  · exact (isValidIpv4Checksum_iff s.buffer).mpr ⟨hihl.ge,by rw [hihl]; exact hip ▸ ip_checked s⟩
  · change onesSum (pseudoHeader (saddr s.buffer) (daddr s.buffer) (ipPayload s.buffer).length ++
      ipPayload s.buffer) = 65535
    rw [hsaddr,hdaddr,hbody]
    exact tcp_checked h
  · change viewTcp s.buffer = s.view
    rw [viewTcp,Segment.view,hdhost,hshost,hsaddr,hdaddr,htcph,hsource,hdest,hseq,hack,hflags,
      hwindow,hpayload]

end Build

section Echo

/-- What a receiver reads in an ICMP frame; the body follows the checksum. -/
structure EchoView where
  etherDhost : BitVec 48
  etherShost : BitVec 48
  saddr : BitVec 32
  daddr : BitVec 32
  type : UInt8
  code : UInt8
  body : List UInt8

def viewEcho (pkt : Nat → UInt8) : EchoView where
  etherDhost := etherDhost pkt
  etherShost := etherShost pkt
  saddr := saddr pkt
  daddr := daddr pkt
  type := pkt (tcphOf pkt)
  code := pkt (tcphOf pkt + 1)
  body := readBytes pkt (tcphOf pkt + 4) (totLen pkt - ipHdrLen pkt - 4)

theorem viewEcho_same {pkt pkt' : Nat → UInt8} {len : Nat} (h : SameHeaders pkt pkt')
    (hagree : AgreeTo len pkt pkt') (hhdr : ipHdrLen pkt + icmphdrLen ≤ totLen pkt)
    (hlen : 14 + totLen pkt ≤ len) : viewEcho pkt = viewEcho pkt' := by
  have hstart : tcphOf pkt = 14 + ipHdrLen pkt := rfl
  rw [icmphdrLen] at hhdr
  rw [viewEcho,viewEcho,← h.etherDhost,← h.etherShost,← h.saddr,← h.daddr,← tcph_same h,
    ← ipHdrLen_same h,← h.totLen,hagree (tcphOf pkt) (by omega),hagree (tcphOf pkt + 1) (by omega),
    hagree.read (by omega)]

/-- The frame is a valid ICMP message that reads as `v`. -/
structure ValidEcho (bytes : List UInt8) (v : EchoView) : Prop extends ValidIpv4 bytes where
  protocol : protocol (bufferOf bytes) = ipprotoIcmp
  icmpChecksum : onesSum (ipPayload (bufferOf bytes)) = 0xFFFF
  view : viewEcho (bufferOf bytes) = v

/-- An accepted frame with an echo request, which `rx_worker` answers. -/
structure EchoRequest (pkt : Nat → UInt8) : Prop where
  protocol : protocol pkt = ipprotoIcmp
  length : ipHdrLen pkt + icmphdrLen ≤ totLen pkt
  echo : pkt (tcphOf pkt) = icmpEcho
  code : pkt (tcphOf pkt + 1) = 0

variable (pkt : Nat → UInt8)

theorem readBytes_swapMacs :
    readBytes (swapMacs pkt) 0 6 = readBytes pkt 6 6 ∧ readBytes (swapMacs pkt) 6 6 =
      readBytes pkt 0 6 := by
  constructor
  · exact readBytes_stored _ (readBytes_length ..)
  · rw [swapMacs,readBytes_store_other _ _ (by simp),readBytes_stored _ (readBytes_length ..)]

theorem readBytes_swapMacs_other {start n : Nat} (h : 12 ≤ start) :
    readBytes (swapMacs pkt) start n = readBytes pkt start n := by
  rw [swapMacs,readBytes_store_other _ _ (by simp; omega),readBytes_store_other _ _ (by simp; omega)]

theorem readBytes_swapIps :
    readBytes (swapIps pkt) 26 4 = readBytes pkt 30 4 ∧ readBytes (swapIps pkt) 30 4 =
      readBytes pkt 26 4 := by
  constructor
  · rw [swapIps,readBytes_store_other _ _ (by simp),readBytes_stored _ (readBytes_length ..)]
  · exact readBytes_stored _ (readBytes_length ..)

theorem readBytes_swapIps_other {start n : Nat} (h : start + n ≤ 26 ∨ 34 ≤ start) :
    readBytes (swapIps pkt) start n = readBytes pkt start n := by
  rw [swapIps,readBytes_store_other _ _ (by simp; omega),readBytes_store_other _ _ (by simp; omega)]

theorem readBytes_writeIcmp_other {start n icmph len : Nat}
    (h : start + n ≤ icmph ∨ icmph + 4 ≤ start) :
    readBytes (writeIcmp pkt icmph len) start n = readBytes pkt start n := by
  rw [writeIcmp,readBytes_store_other _ _ (by simp; omega),
    readBytes_store_other _ _ (by simp; omega),readBytes_store_other _ _ (by simp; omega)]

/-- The message of a reply: its type, its code and its checksum. -/
theorem readBytes_writeIcmp (icmph : Nat) {len : Nat} (hlen : 8 ≤ len) (hmax : len < 65536) :
    writeIcmp pkt icmph len icmph = icmpEchoReply ∧
      writeIcmp pkt icmph len (icmph + 1) = pkt (icmph + 1) ∧
      onesSum (readBytes (writeIcmp pkt icmph len) icmph len) = 65535 := by
  refine ⟨?_,?_,onesSum_filled _ (by omega) (by omega) (by simp) hmax⟩
  · simp [writeIcmp,storeBytes,copyBytes]
  · simp [writeIcmp,storeBytes,copyBytes]

theorem readBytes_renewIpCheck_other {start n len : Nat} (h : start + n ≤ 24 ∨ 26 ≤ start) :
    readBytes (renewIpCheck pkt len) start n = readBytes pkt start n := by
  rw [renewIpCheck,readBytes_store_other _ _ (by simp; omega),
    readBytes_store_other _ _ (by simp; omega)]

theorem onesSum_renewIpCheck {len : Nat} (hlen : 20 ≤ len) (hmax : len < 65536) :
    onesSum (readBytes (renewIpCheck pkt len) 14 len) = 65535 :=
  onesSum_filled pkt (by decide) (by omega) (by decide) hmax

variable {pkt}

theorem tcphOf_ge (h : 5 ≤ ihl pkt) : 34 ≤ tcphOf pkt := by
  rw [tcphOf,ipHdrLen,etherHeaderLen]
  omega

/-- The reply keeps what lies outside the addresses, the checksums and the type. -/
theorem readBytes_reply {start n : Nat} (len : Nat) (hihl : 5 ≤ ihl pkt) (hstart : 12 ≤ start)
    (h : start + n ≤ 24 ∨ 34 ≤ start ∧ (start + n ≤ tcphOf pkt ∨ tcphOf pkt + 4 ≤ start)) :
    readBytes (icmpEchoReplyTo pkt len).pkt start n = readBytes pkt start n := by
  have htcph := tcphOf_ge hihl
  rw [icmpEchoReplyTo,readBytes_renewIpCheck_other _ (by omega),
    readBytes_writeIcmp_other _ (by omega),readBytes_swapIps_other _ (by omega),
    readBytes_swapMacs_other _ hstart]

theorem reply_addresses (len : Nat) (hihl : 5 ≤ ihl pkt) :
    etherDhost (icmpEchoReplyTo pkt len).pkt = etherShost pkt ∧
      etherShost (icmpEchoReplyTo pkt len).pkt = etherDhost pkt ∧
      saddr (icmpEchoReplyTo pkt len).pkt = daddr pkt ∧
      daddr (icmpEchoReplyTo pkt len).pkt = saddr pkt := by
  have htcph := tcphOf_ge hihl
  have hmac : ∀ start, start + 6 ≤ 12 → readBytes (icmpEchoReplyTo pkt len).pkt start 6 =
      readBytes (swapMacs pkt) start 6 := by
    intro start h
    rw [icmpEchoReplyTo,readBytes_renewIpCheck_other _ (by omega),
      readBytes_writeIcmp_other _ (by omega),readBytes_swapIps_other _ (by omega)]
  have hip : ∀ start, 26 ≤ start → start + 4 ≤ 34 →
      readBytes (icmpEchoReplyTo pkt len).pkt start 4 =
        readBytes (swapIps (swapMacs pkt)) start 4 := by
    intro start h h'
    rw [icmpEchoReplyTo,readBytes_renewIpCheck_other _ (by omega),
      readBytes_writeIcmp_other _ (by omega)]
  refine ⟨?_,?_,?_,?_⟩
  · rw [etherDhost,macAt,hmac 0 (by decide),(readBytes_swapMacs pkt).1,etherShost,macAt]
  · rw [etherShost,macAt,hmac 6 (by decide),(readBytes_swapMacs pkt).2,etherDhost,macAt]
  · rw [saddr,u32At,hip 26 (by decide) (by decide),(readBytes_swapIps _).1,
      readBytes_swapMacs_other _ (by decide),daddr,u32At]
  · rw [daddr,u32At,hip 30 (by decide) (by decide),(readBytes_swapIps _).2,
      readBytes_swapMacs_other _ (by decide),saddr,u32At]

theorem byte_eq_of_readBytes {pkt pkt' : Nat → UInt8} {i : Nat}
    (h : readBytes pkt i 1 = readBytes pkt' i 1) : pkt i = pkt' i := by
  simpa [readBytes] using h

theorem reply_headers (len : Nat) (hihl : 5 ≤ ihl pkt) :
    etherType (icmpEchoReplyTo pkt len).pkt = etherType pkt ∧
      ihl (icmpEchoReplyTo pkt len).pkt = ihl pkt ∧
      totLen (icmpEchoReplyTo pkt len).pkt = totLen pkt ∧
      protocol (icmpEchoReplyTo pkt len).pkt = protocol pkt := by
  have hfirst : (icmpEchoReplyTo pkt len).pkt 14 = pkt 14 :=
    byte_eq_of_readBytes (readBytes_reply len hihl (by decide) (Or.inl (by decide)))
  have hproto : (icmpEchoReplyTo pkt len).pkt 23 = pkt 23 :=
    byte_eq_of_readBytes (readBytes_reply len hihl (by decide) (Or.inl (by decide)))
  refine ⟨?_,?_,?_,?_⟩
  · rw [etherType,ntohsAt,readBytes_reply len hihl (by decide) (Or.inl (by decide)),← ntohsAt,← etherType]
  · rw [ihl,hfirst,← ihl]
  · rw [totLen,ntohsAt,readBytes_reply len hihl (by decide) (Or.inl (by decide)),← ntohsAt,← totLen]
  · rw [protocol,hproto,← protocol]

/-- The checksums of the reply. -/
theorem reply_checked (len : Nat) (hihl : 5 ≤ ihl pkt) (hlen : ipHdrLen pkt + icmphdrLen ≤ totLen pkt) :
    onesSum (readBytes (icmpEchoReplyTo pkt len).pkt 14 (4 * ihl pkt)) = 65535 ∧
      onesSum (readBytes (icmpEchoReplyTo pkt len).pkt (tcphOf pkt)
        (totLen pkt - ipHdrLen pkt)) = 65535 := by
  have htot := ntohsAt_lt pkt 16
  have hmax : ihl pkt < 16 := Nat.mod_lt _ (by decide)
  have htcph := tcphOf_ge hihl
  rw [icmphdrLen] at hlen
  rw [← totLen] at htot
  constructor
  · rw [show 4 * ihl pkt = ipHdrLen pkt by rw [ipHdrLen]; omega]
    apply onesSum_renewIpCheck
    · rw [ipHdrLen]
      omega
    · rw [ipHdrLen]
      omega
  · rw [icmpEchoReplyTo,readBytes_renewIpCheck_other _ (by omega)]
    exact (readBytes_writeIcmp _ _ (by omega) (by omega)).2.2

/-- What the reply to the frame should read as. -/
def echoReplyView (pkt : Nat → UInt8) : EchoView where
  etherDhost := etherShost pkt
  etherShost := etherDhost pkt
  saddr := daddr pkt
  daddr := saddr pkt
  type := icmpEchoReply
  code := 0
  body := (viewEcho pkt).body

theorem viewEcho_reply (len : Nat) (hihl : 5 ≤ ihl pkt) (h : EchoRequest pkt) :
    viewEcho (icmpEchoReplyTo pkt len).pkt = echoReplyView pkt := by
  obtain ⟨hdhost,hshost,hsaddr,hdaddr⟩ := reply_addresses len hihl
  obtain ⟨_,hihl',htot,_⟩ := reply_headers len hihl
  have hlen := h.length
  have htcph := tcphOf_ge hihl
  have hhdr : ipHdrLen (icmpEchoReplyTo pkt len).pkt = ipHdrLen pkt := by
    rw [ipHdrLen,hihl',← ipHdrLen]
  have hstart : tcphOf (icmpEchoReplyTo pkt len).pkt = tcphOf pkt := by
    rw [tcphOf,hhdr,← tcphOf]
  have hbody := readBytes_reply (n := totLen pkt - ipHdrLen pkt - 4) len hihl
    (show 12 ≤ tcphOf pkt + 4 by omega) (Or.inr ⟨by omega,Or.inr le_rfl⟩)
  have hicmp : ∀ i, tcphOf pkt ≤ i → (icmpEchoReplyTo pkt len).pkt i = writeIcmp
      (swapIps (swapMacs pkt)) (tcphOf pkt) (totLen pkt - ipHdrLen pkt) i :=
    fun i hi => byte_eq_of_readBytes (readBytes_renewIpCheck_other _ (by omega))
  rw [icmphdrLen] at hlen
  have htot' := ntohsAt_lt pkt 16
  rw [← totLen] at htot'
  obtain ⟨htype,hcode,_⟩ := readBytes_writeIcmp (swapIps (swapMacs pkt)) (tcphOf pkt)
    (show 8 ≤ totLen pkt - ipHdrLen pkt by omega) (by omega)
  have hcode' : swapIps (swapMacs pkt) (tcphOf pkt + 1) = pkt (tcphOf pkt + 1) := by
    apply byte_eq_of_readBytes
    rw [readBytes_swapIps_other _ (by omega),readBytes_swapMacs_other _ (by omega)]
  rw [viewEcho,echoReplyView,hdhost,hshost,hsaddr,hdaddr,hstart,htot,hhdr,hbody,hicmp _ le_rfl,
    htype,hicmp _ (by omega),hcode,hcode',h.code,viewEcho]

/-- The echo reply is valid and answers the sender. -/
theorem icmpEchoReplyTo_valid {len : Nat} (haccept : acceptsIpv4 pkt len = true)
    (h : EchoRequest pkt) : ValidEcho (icmpEchoReplyTo pkt len).bytes (echoReplyView pkt) := by
  obtain ⟨htype,hihl,_,hhdr,hend⟩ := acceptsIpv4_lengths haccept
  obtain ⟨htype',hihl',htot,hproto⟩ := reply_headers len hihl
  obtain ⟨hip,hicmp⟩ := reply_checked len hihl h.length
  have hview := viewEcho_reply len hihl h
  have hlen := h.length
  have hmin : ipHdrLen pkt = ihl pkt * 4 := rfl
  have hhdr' : ipHdrLen (icmpEchoReplyTo pkt len).pkt = ipHdrLen pkt := by
    rw [ipHdrLen,hihl',← ipHdrLen]
  have hagree : AgreeTo len (icmpEchoReplyTo pkt len).pkt (bufferOf (icmpEchoReplyTo pkt len).bytes) :=
    agreeTo_bufferOf _ len
  have hsame := headers_same hagree (by omega)
  have hlen' : (icmpEchoReplyTo pkt len).bytes.length = len := readBytes_length ..
  refine ⟨⟨?_,?_,?_⟩,?_,?_,?_⟩
  · rw [← hsame.etherType,htype',htype]
  · rw [← checksum_same hsame hagree (by omega),isValidIpv4Checksum_iff,hihl']
    exact ⟨hihl,hip⟩
  · rw [← hsame.totLen,htot,hlen',etherHeaderLen]
    exact hend
  · rw [← hsame.protocol,hproto,h.protocol]
  · rw [← payload_same hsame hagree (by omega) (by omega),ipPayload,tcphOf,hhdr',htot,← tcphOf]
    exact hicmp
  · rw [← viewEcho_same hsame hagree (by omega) (by omega),hview]

end Echo

section Answers

variable (pkt : Nat → UInt8)

/-- What an answer to the sender of the frame should read as. -/
def answerView (seq ackSeq : BitVec 32) (flags : BitVec 8) (window : Nat) : TcpView where
  etherDhost := etherShost pkt
  etherShost := etherDhost pkt
  saddr := daddr pkt
  daddr := saddr pkt
  source := tcpDest pkt (tcphOf pkt)
  dest := tcpSource pkt (tcphOf pkt)
  seq := seq
  ackSeq := ackSeq
  flags := flags
  window := window
  payload := []

/-- An RST takes its number from an incoming ACK, and otherwise acknowledges what came in. -/
def rstView (payloadLen : Nat) : TcpView :=
  if tcpFlags pkt (tcphOf pkt) &&& thAck ≠ 0 then
    answerView pkt (tcpAckSeq pkt (tcphOf pkt)) 0 thRst 0
  else
    answerView pkt 0 (tcpSeq pkt (tcphOf pkt) + BitVec.ofNat 32 (max payloadLen 1)) (thRst ||| thAck) 0

theorem ofNat_beNat_beBytes (x : BitVec 32) : BitVec.ofNat 32 (beNat (beBytes 4 x.toNat)) = x := by
  rw [beNat_beBytes,show 256 ^ 4 = 2 ^ 32 from rfl,Nat.mod_eq_of_lt x.isLt,BitVec.ofNat_toNat,
    BitVec.setWidth_eq]

/-- An answer whose number fields hold `seq` and `ackSeq`. -/
theorem answerTo_valid {seqBytes ackBytes : List UInt8} {seq ackSeq : BitVec 32} {window : Nat}
    (hseqLen : seqBytes.length = 4) (hackLen : ackBytes.length = 4) (hwindow : window < 65536)
    (hseq : BitVec.ofNat 32 (beNat seqBytes) = seq) (hack : BitVec.ofNat 32 (beNat ackBytes) = ackSeq)
    (flags : BitVec 8) :
    ValidTcp (buildSegment pkt (answerTo pkt (tcphOf pkt) seqBytes ackBytes flags window)).bytes
      (answerView pkt seq ackSeq flags window) := by
  have h := buildSegment_valid (s := answerTo pkt (tcphOf pkt) seqBytes ackBytes flags window) pkt
    ⟨hseqLen,hackLen,hwindow,Nat.zero_le _⟩
  subst hseq hack
  exact h

theorem ipv4SendTcpRst_valid (payloadLen : Nat) :
    ValidTcp (ipv4SendTcpRst pkt (tcphOf pkt) payloadLen).bytes (rstView pkt payloadLen) := by
  rw [ipv4SendTcpRst,rstView]
  split
  · exact answerTo_valid pkt (readBytes_length ..) rfl (by decide) rfl rfl _
  · have hack : (if payloadLen > 0 then BitVec.ofNat 32 payloadLen else 1) =
        BitVec.ofNat 32 (max payloadLen 1) := by
      split
      · congr 1
        omega
      · rw [show max payloadLen 1 = 1 by omega]
        rfl
    exact answerTo_valid pkt rfl (beBytes_length ..) (by decide) rfl
      (by rw [ofNat_beNat_beBytes,hack]) _

/-- Every frame that is built has valid checksums, goes to the right peer and carries what the
builder was asked for. -/
theorem emitted_frames_valid (len : Nat) (haccept : acceptsIpv4 pkt len = true)
    (seq ackNo : BitVec 32) (window : BitVec 16) (payloadLen : Nat) (txBuffer : Nat → UInt8)
    (clientMac serverMac : BitVec 48) (clientIp serverIp : BitVec 32)
    (clientPort serverPort : BitVec 16) (payload : List UInt8) (hpayload : payload.length ≤ 1460) :
    ValidTcp (ipv4SendTcpAck pkt (tcphOf pkt) seq ackNo window.toNat).bytes
        (answerView pkt seq ackNo thAck window.toNat) ∧
      ValidTcp (ipv4SendTcpRst pkt (tcphOf pkt) payloadLen).bytes (rstView pkt payloadLen) ∧
      ValidTcp (ipv4SendTcpSynAck pkt (tcphOf pkt) seq ackNo).bytes
        (answerView pkt seq (ackNo + 1) (thSyn ||| thAck) 65535) ∧
      ValidTcp (ipv4SendTcpData txBuffer clientMac serverMac clientIp serverIp clientPort serverPort
          seq ackNo payload window.toNat).bytes
        ⟨clientMac,serverMac,serverIp,clientIp,serverPort,clientPort,seq,ackNo,
          if payload.length > 0 then thAck ||| thPsh else thAck,window.toNat,payload⟩ ∧
      ValidTcp (ipv4SendTcpFin txBuffer clientMac serverMac clientIp serverIp clientPort serverPort
          seq ackNo window.toNat).bytes
        ⟨clientMac,serverMac,serverIp,clientIp,serverPort,clientPort,seq,ackNo,thAck ||| thFin,
          window.toNat,[]⟩ ∧
      (EchoRequest pkt → ValidEcho (icmpEchoReplyTo pkt len).bytes (echoReplyView pkt)) := by
  have hseq := ofNat_beNat_beBytes seq
  have hack := ofNat_beNat_beBytes ackNo
  refine ⟨?_,ipv4SendTcpRst_valid pkt payloadLen,?_,?_,?_,icmpEchoReplyTo_valid haccept⟩
  · exact answerTo_valid pkt (beBytes_length ..) (beBytes_length ..) window.isLt hseq hack _
  · exact answerTo_valid pkt (beBytes_length ..) (beBytes_length ..) (by decide) hseq
      (ofNat_beNat_beBytes (ackNo + 1)) _
  · have h := buildSegment_valid txBuffer (s := ⟨clientMac,serverMac,clientIp,serverIp,clientPort,
      serverPort,beBytes 4 seq.toNat,beBytes 4 ackNo.toNat,
      if payload.length > 0 then thAck ||| thPsh else thAck,window.toNat,payload⟩)
      ⟨beBytes_length ..,beBytes_length ..,window.isLt,hpayload⟩
    rw [Segment.view,hseq,hack] at h
    exact h
  · have h := buildSegment_valid txBuffer (s := ⟨clientMac,serverMac,clientIp,serverIp,clientPort,
      serverPort,beBytes 4 seq.toNat,beBytes 4 ackNo.toNat,thAck ||| thFin,window.toNat,[]⟩)
      ⟨beBytes_length ..,beBytes_length ..,window.isLt,Nat.zero_le _⟩
    rw [Segment.view,hseq,hack] at h
    exact h

/-- An echo request with one word of IPv4 options and a body of odd length. -/
def pingFrame : List UInt8 :=
  [1,1,1,1,1,1,2,2,2,2,2,2,0x08,0x00,
    0x46,0,0,33,0,0,0,0,64,1,0x63,0xd9,10,0,0,1,10,0,0,2,1,1,1,0,
    8,0,0,0,0,1,0,2,97]

theorem pingFrame_accepted : acceptsIpv4 (bufferOf pingFrame) 47 = true := by decide +kernel

theorem pingFrame_echo : EchoRequest (bufferOf pingFrame) :=
  ⟨by decide +kernel,by decide +kernel,by decide +kernel,by decide +kernel⟩

theorem emitted_frames_valid_ping :
    acceptsIpv4 (bufferOf pingFrame) 47 = true ∧
      ValidTcp (ipv4SendTcpData (fun _ => 0) 1 2 3 4 5 6 7 8 [97,98,99] 65535).bytes
        ⟨1,2,4,3,6,5,7,8,thAck ||| thPsh,65535,[97,98,99]⟩ ∧
      ValidEcho (icmpEchoReplyTo (bufferOf pingFrame) 47).bytes
        (echoReplyView (bufferOf pingFrame)) :=
  have h := emitted_frames_valid (bufferOf pingFrame) 47 pingFrame_accepted 7 8 65535 0 (fun _ => 0)
    1 2 3 4 5 6 [97,98,99] (by decide)
  ⟨pingFrame_accepted,h.2.2.2.1,h.2.2.2.2.2 pingFrame_echo⟩

end Answers

end Aethon.Net
