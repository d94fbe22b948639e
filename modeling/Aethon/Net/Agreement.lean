import Aethon.Net.Checksum
import Aethon.Net.RxPacket

/-!
# What the headers are read from

Two frames that hold the same first bytes have the same headers, as far as the bytes reach.
-/

namespace Aethon.Net

open Framework

/-- The frames have the same Ethernet header and the same fixed part of the IPv4 header. -/
structure SameHeaders (pkt pkt' : Nat → UInt8) : Prop where
  etherDhost : etherDhost pkt = etherDhost pkt'
  etherShost : etherShost pkt = etherShost pkt'
  etherType : etherType pkt = etherType pkt'
  ihl : ihl pkt = ihl pkt'
  totLen : totLen pkt = totLen pkt'
  ipId : ipId pkt = ipId pkt'
  fragOff : fragOff pkt = fragOff pkt'
  protocol : protocol pkt = protocol pkt'
  saddr : saddr pkt = saddr pkt'
  daddr : daddr pkt = daddr pkt'
  destination : ntohlAt pkt 30 = ntohlAt pkt' 30

variable {pkt pkt' : Nat → UInt8} {len : Nat}

theorem headers_same (h : AgreeTo len pkt pkt') (hlen : 34 ≤ len) : SameHeaders pkt pkt' where
  etherDhost := congrArg (fun bytes => BitVec.ofNat 48 (leNat bytes)) (h.read (by omega))
  etherShost := congrArg (fun bytes => BitVec.ofNat 48 (leNat bytes)) (h.read (by omega))
  etherType := congrArg beNat (h.read (by omega))
  ihl := congrArg (fun byte : UInt8 => byte.toNat % 16) (h 14 (by omega))
  totLen := congrArg beNat (h.read (by omega))
  ipId := congrArg beNat (h.read (by omega))
  fragOff := congrArg beNat (h.read (by omega))
  protocol := congrArg UInt8.toNat (h 23 (by omega))
  saddr := congrArg (fun bytes => BitVec.ofNat 32 (leNat bytes)) (h.read (by omega))
  daddr := congrArg (fun bytes => BitVec.ofNat 32 (leNat bytes)) (h.read (by omega))
  destination := congrArg (fun bytes => BitVec.ofNat 32 (beNat bytes)) (h.read (by omega))

theorem ipHdrLen_same (h : SameHeaders pkt pkt') : ipHdrLen pkt = ipHdrLen pkt' := by
  rw [ipHdrLen,h.ihl,← ipHdrLen]

theorem tcph_same (h : SameHeaders pkt pkt') : tcphOf pkt = tcphOf pkt' := by
  rw [tcphOf,ipHdrLen_same h,← tcphOf]

theorem checksum_same (h : SameHeaders pkt pkt') (hagree : AgreeTo len pkt pkt')
    (hlen : 14 + ipHdrLen pkt ≤ len) : isValidIpv4Checksum pkt = isValidIpv4Checksum pkt' := by
  have hread : readBytes pkt 14 (4 * ihl pkt) = readBytes pkt' 14 (4 * ihl pkt) :=
    hagree.read (by rw [ipHdrLen] at hlen; omega)
  rw [Bool.eq_iff_iff,isValidIpv4Checksum_iff,isValidIpv4Checksum_iff,← h.ihl,hread]

theorem payload_same (h : SameHeaders pkt pkt') (hagree : AgreeTo len pkt pkt')
    (hhdr : ipHdrLen pkt ≤ totLen pkt) (hlen : 14 + totLen pkt ≤ len) :
    ipPayload pkt = ipPayload pkt' := by
  rw [ipPayload,ipPayload,← tcph_same h,← h.totLen,← ipHdrLen_same h]
  apply hagree.read
  rw [tcphOf,etherHeaderLen]
  omega

/-- The lengths of an accepted frame. -/
theorem acceptsIpv4_lengths (h : acceptsIpv4 pkt len = true) :
    etherType pkt = etherTypeIp ∧ 5 ≤ ihl pkt ∧ ihl pkt ≤ 15 ∧ ipHdrLen pkt ≤ totLen pkt ∧
      14 + totLen pkt ≤ len := by
  have hihl : ihl pkt < 16 := Nat.mod_lt _ (by decide)
  simp only [acceptsIpv4,Bool.and_eq_true,decide_eq_true_eq,Bool.not_eq_true'] at h
  obtain ⟨⟨⟨htype,hlen⟩,_⟩,hrest⟩ := h
  simp only [Bool.or_eq_false_iff] at hrest
  obtain ⟨⟨hhdr,htot⟩,hend⟩ := hrest
  have hhdr := of_decide_eq_false hhdr
  have htot := of_decide_eq_false htot
  have hend := of_decide_eq_false hend
  simp only [etherHeaderLen,iphdrLen,ipHdrLen] at hlen hhdr htot hend
  rw [ipHdrLen]
  exact ⟨htype,by omega,by omega,by omega,by omega⟩

end Aethon.Net
