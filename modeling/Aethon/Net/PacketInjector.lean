import Aethon.Framework.OnesComplement
import Aethon.Transport.TcpSession

/-!
# Frames and checksums

Ethernet, IPv4 and TCP headers in a frame buffer, the checksum routines, and the builders of
`PacketInjector`. A builder writes over the buffer from which it has read the incoming headers.
-/

namespace Aethon.Net

open Framework

section Headers

def etherHeaderLen : Nat := 14
def iphdrLen : Nat := 20
def tcphdrLen : Nat := 20
def etherTypeIp : Nat := 0x0800
def ipprotoTcp : Nat := 6

def thPsh : BitVec 8 := 0x08

variable (pkt : Nat → UInt8) (i : Nat)

def macAt : BitVec 48 := BitVec.ofNat 48 (leNat (readBytes pkt i 6))

/-- A 16-bit field as it stands in the header. -/
def u16At : BitVec 16 := BitVec.ofNat 16 (leNat (readBytes pkt i 2))

/-- A 32-bit field as it stands in the header. -/
def u32At : BitVec 32 := BitVec.ofNat 32 (leNat (readBytes pkt i 4))

/-- `ntohs` of a field. -/
def ntohsAt : Nat := beNat (readBytes pkt i 2)

/-- `ntohl` of a field. -/
def ntohlAt : BitVec 32 := BitVec.ofNat 32 (beNat (readBytes pkt i 4))

def etherDhost : BitVec 48 := macAt pkt 0
def etherShost : BitVec 48 := macAt pkt 6
def etherType : Nat := ntohsAt pkt 12
def ihl : Nat := (pkt 14).toNat % 16
def totLen : Nat := ntohsAt pkt 16
def ipId : Nat := ntohsAt pkt 18
def fragOff : Nat := ntohsAt pkt 20
def protocol : Nat := (pkt 23).toNat
def saddr : BitVec 32 := u32At pkt 26
def daddr : BitVec 32 := u32At pkt 30

def ipHdrLen : Nat := ihl pkt * 4

/-- Where the header behind the IPv4 header starts. -/
def tcphOf : Nat := etherHeaderLen + ipHdrLen pkt

variable (tcph : Nat)

def tcpSource : BitVec 16 := u16At pkt tcph
def tcpDest : BitVec 16 := u16At pkt (tcph + 2)
def tcpSeq : BitVec 32 := ntohlAt pkt (tcph + 4)
def tcpAckSeq : BitVec 32 := ntohlAt pkt (tcph + 8)
def tcpDoff : Nat := (pkt (tcph + 12)).toNat / 16
def tcpFlags : BitVec 8 := (pkt (tcph + 13)).toBitVec
def tcpWindow : Nat := ntohsAt pkt (tcph + 14)

end Headers

section Checksums

/-- The loop over 16-bit words, in 32 bits. -/
def addWords : Nat → List UInt8 → Nat
  | sum, hi :: lo :: bytes => addWords ((sum + (hi.toNat * 256 + lo.toNat)) % 2 ^ 32) bytes
  | sum, [hi] => (sum + hi.toNat * 256) % 2 ^ 32
  | sum, [] => sum

/-- The end of each checksum routine: add the carries and complement. -/
def complement (sum : Nat) : Nat := (2 ^ 32 - 1 - foldCarries sum sum) % 2 ^ 16

def ipv4ComputeChecksum (bytes : List UInt8) : Nat := complement (addWords 0 bytes)

/-- The routine of the echo reply. -/
def getChecksum (bytes : List UInt8) : Nat := complement (addWords 0 bytes)

def pseudoHeader (srcIp dstIp : BitVec 32) (tcpLen : Nat) : List UInt8 :=
  leBytes 4 srcIp.toNat ++ leBytes 4 dstIp.toNat ++ [0,6] ++ beBytes 2 tcpLen

def ipv4TcpComputeChecksum (srcIp dstIp : BitVec 32) (tcp : List UInt8) : Nat :=
  complement (addWords (addWords 0 (pseudoHeader srcIp dstIp tcp.length)) tcp)

/-- The loop of `is_valid_ipv4_checksum` over the words that are left. -/
def addRest (word : Nat → Nat) : Nat → Nat → Nat → Nat
  | 0, _, acc => acc
  | words + 1, k, acc => addRest word words (k + 1) (acc + word k)

/-- Its loop over four words at a time. -/
def addFours (word : Nat → Nat) : Nat → Nat → Nat → Nat
  | words + 4, k, acc =>
      addFours word words (k + 4) (acc + word k + word (k + 1) + word (k + 2) + word (k + 3))
  | words, k, acc => addRest word words k acc

/-- The 32-bit words of the IPv4 header, added in 64 bits. -/
def headerSum (pkt : Nat → UInt8) : Nat :=
  if ihl pkt = 5 then
    let w0 := leNat (readBytes pkt 14 8)
    let w1 := leNat (readBytes pkt 22 8)
    let w2 := leNat (readBytes pkt 30 4)
    (w0 &&& 0xFFFFFFFF) + (w0 >>> 32) + (w1 &&& 0xFFFFFFFF) + (w1 >>> 32) + w2
  else addFours (fun k => leNat (readBytes pkt (14 + 4 * k) 4)) (ihl pkt) 0 0

def isValidIpv4Checksum (pkt : Nat → UInt8) : Bool :=
  if ihl pkt < 5 ∨ ihl pkt > 15 then false
  else
    let acc := headerSum pkt
    let acc := (acc &&& 0xFFFFFFFF) + (acc >>> 32)
    let acc := (acc &&& 0xFFFFFFFF) + (acc >>> 32)
    let acc := (acc &&& 0xFFFF) + (acc >>> 16)
    let acc := (acc &&& 0xFFFF) + (acc >>> 16)
    acc % 2 ^ 16 = 0xFFFF

end Checksums

/-- A buffer of which the first bytes are sent. -/
structure TxFrame where
  pkt : Nat → UInt8
  len : Nat

def TxFrame.bytes (frame : TxFrame) : List UInt8 := readBytes frame.pkt 0 frame.len

/-- What a builder fills a segment with. The numbers are the bytes of their fields. -/
structure Segment where
  clientMac : BitVec 48
  serverMac : BitVec 48
  clientIp : BitVec 32
  serverIp : BitVec 32
  clientPort : BitVec 16
  serverPort : BitVec 16
  seq : List UInt8
  ackSeq : List UInt8
  flags : BitVec 8
  window : Nat := 0
  payload : List UInt8 := []

section Builders

variable (pkt : Nat → UInt8)

def writeEther (clientMac serverMac : BitVec 48) : Nat → UInt8 :=
  storeBytes (storeBytes (storeBytes pkt 0 (leBytes 6 clientMac.toNat)) 6
    (leBytes 6 serverMac.toNat)) 12 (beBytes 2 etherTypeIp)

/-- The IPv4 header of a segment, with an empty checksum. -/
def ipHeader (len : Nat) (src dst : BitVec 32) : List UInt8 :=
  [0x45,0] ++ beBytes 2 len ++ beBytes 2 0x1337 ++ [0,0,64,6,0,0] ++ leBytes 4 src.toNat ++
    leBytes 4 dst.toNat

def writeIph (len : Nat) (src dst : BitVec 32) : Nat → UInt8 :=
  let pkt := storeBytes pkt 14 (ipHeader len src dst)
  storeBytes pkt 24 (beBytes 2 (ipv4ComputeChecksum (readBytes pkt 14 20)))

/-- The TCP header of a segment, with an empty checksum. -/
def tcpHeader (s : Segment) : List UInt8 :=
  leBytes 2 s.serverPort.toNat ++ leBytes 2 s.clientPort.toNat ++ s.seq ++ s.ackSeq ++
    [0x50,.ofBitVec s.flags] ++ beBytes 2 s.window ++ [0,0,0,0]

def writeTcph (s : Segment) : Nat → UInt8 :=
  let pkt := storeBytes (storeBytes pkt 34 (tcpHeader s)) 54 s.payload
  storeBytes pkt 50 (beBytes 2 (ipv4TcpComputeChecksum (u32At pkt 26) (u32At pkt 30)
    (readBytes pkt 34 (20 + s.payload.length))))

/-- What the builders share: the three headers, the payload and both checksums. -/
def buildSegment (s : Segment) : TxFrame where
  pkt := writeTcph (writeIph (writeEther pkt s.clientMac s.serverMac)
    (20 + 20 + s.payload.length) s.serverIp s.clientIp) s
  len := 14 + 20 + 20 + s.payload.length

def ipv4SendTcpData (clientMac serverMac : BitVec 48) (clientIp serverIp : BitVec 32)
    (clientPort serverPort : BitVec 16) (serverSeq clientAck : BitVec 32) (tlsData : List UInt8)
    (window : Nat) : TxFrame :=
  buildSegment pkt
    { clientMac, serverMac, clientIp, serverIp, clientPort, serverPort
      seq := beBytes 4 serverSeq.toNat
      ackSeq := beBytes 4 clientAck.toNat
      flags := if tlsData.length > 0 then thAck ||| thPsh else thAck
      window
      payload := tlsData }

def ipv4SendTcpFin (clientMac serverMac : BitVec 48) (clientIp serverIp : BitVec 32)
    (clientPort serverPort : BitVec 16) (serverSeq clientAck : BitVec 32) (window : Nat) : TxFrame :=
  buildSegment pkt
    { clientMac, serverMac, clientIp, serverIp, clientPort, serverPort
      seq := beBytes 4 serverSeq.toNat
      ackSeq := beBytes 4 clientAck.toNat
      flags := thAck ||| thFin
      window }

/-- The answer to the sender of the segment in the buffer, whose TCP header is at `tcph`. -/
def answerTo (tcph : Nat) (seq ackSeq : List UInt8) (flags : BitVec 8) (window : Nat) : Segment where
  clientMac := etherShost pkt
  serverMac := etherDhost pkt
  clientIp := saddr pkt
  serverIp := daddr pkt
  clientPort := tcpSource pkt tcph
  serverPort := tcpDest pkt tcph
  seq := seq
  ackSeq := ackSeq
  flags := flags
  window := window

def ipv4SendTcpAck (tcph : Nat) (serverSeq clientAck : BitVec 32) (window : Nat) : TxFrame :=
  buildSegment pkt (answerTo pkt tcph (beBytes 4 serverSeq.toNat) (beBytes 4 clientAck.toNat)
    thAck window)

/-- Only an incoming ACK gives the RST a sequence number. -/
def ipv4SendTcpRst (tcph : Nat) (payloadLen : Nat) : TxFrame :=
  if tcpFlags pkt tcph &&& thAck ≠ 0 then
    buildSegment pkt (answerTo pkt tcph (readBytes pkt (tcph + 8) 4) [0,0,0,0] thRst 0)
  else
    let ackSeq := tcpSeq pkt tcph + (if payloadLen > 0 then BitVec.ofNat 32 payloadLen else 1)
    buildSegment pkt (answerTo pkt tcph [0,0,0,0] (beBytes 4 ackSeq.toNat) (thRst ||| thAck) 0)

def ipv4SendTcpSynAck (tcph : Nat) (serverIsn clientSeq : BitVec 32) : TxFrame :=
  buildSegment pkt (answerTo pkt tcph (beBytes 4 serverIsn.toNat) (beBytes 4 (clientSeq + 1).toNat)
    (thSyn ||| thAck) 65535)

end Builders

section Icmp

def icmpEcho : UInt8 := 8
def icmpEchoReply : UInt8 := 0

variable (pkt : Nat → UInt8)

/-- Swap the MAC addresses. -/
def swapMacs : Nat → UInt8 :=
  let tempMac := readBytes pkt 6 6
  storeBytes (storeBytes pkt 6 (readBytes pkt 0 6)) 0 tempMac

/-- Swap the IPv4 addresses. -/
def swapIps : Nat → UInt8 :=
  storeBytes (storeBytes pkt 26 (readBytes pkt 30 4)) 30 (readBytes pkt 26 4)

/-- Make the ICMP message of `len` bytes at `icmph` a reply. -/
def writeIcmp (icmph len : Nat) : Nat → UInt8 :=
  let pkt := storeBytes (storeBytes pkt icmph [icmpEchoReply]) (icmph + 2) [0,0]
  storeBytes pkt (icmph + 2) (beBytes 2 (getChecksum (readBytes pkt icmph len)))

/-- Renew the checksum of an IPv4 header of `len` bytes. -/
def renewIpCheck (len : Nat) : Nat → UInt8 :=
  let pkt := storeBytes pkt 24 [0,0]
  storeBytes pkt 24 (beBytes 2 (getChecksum (readBytes pkt 14 len)))

/-- The echo reply that `rx_worker` makes of the echo request in the buffer. -/
def icmpEchoReplyTo (len : Nat) : TxFrame where
  pkt := renewIpCheck (writeIcmp (swapIps (swapMacs pkt)) (tcphOf pkt) (totLen pkt - ipHdrLen pkt))
    (ipHdrLen pkt)
  len := len

end Icmp

end Aethon.Net
