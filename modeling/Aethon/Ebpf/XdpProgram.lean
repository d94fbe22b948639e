import Aethon.Net.RxPacket
import Mathlib.Data.Nat.Bitwise

/-!
# The XDP program

`aethon_xdp_prog_main`: frames that are too short are dropped, frames that are not IP go to the
stack, fragments of TCP are dropped, and the rest is redirected to the socket of a queue. The check
of the block list and the rate limiters are commented out in the source.
-/

namespace Aethon.Ebpf

open Net

inductive XdpAction where
  | aborted
  | drop
  | pass
  | tx
  | redirect
  deriving DecidableEq, Repr

def ethPIpv6 : Nat := 0x86DD
def ipv6hdrLen : Nat := 40
def aethonMaxQueueSize : Nat := 64

/-- The maps that the program reads: the value in `queue_config_map`, and the queues that have a
socket in `aethon_xsks_map`. -/
structure XdpMaps where
  queueConfig : Option (BitVec 32)
  xsks : Nat → Bool

/-- How the program ends: with an action, whether the frame is counted, at the label `out`, and for
a redirection with the queue of the socket. -/
structure XdpVerdict where
  action : XdpAction
  counted : Bool := true
  queue : Option Nat := none
  deriving DecidableEq

/-- `bpf_redirect_map` with flags 0. -/
def bpfRedirectMap (maps : XdpMaps) (queue : Nat) : XdpVerdict :=
  if queue < aethonMaxQueueSize ∧ maps.xsks queue then ⟨.redirect,true,some queue⟩
  else ⟨.aborted,true,none⟩

section Program

variable (maps : XdpMaps) (rxQueueIndex : BitVec 32) (pkt : Nat → UInt8) (len : Nat)

/-- `is_fragment`. -/
def isFragment : Bool := fragOff pkt &&& 0x3FFF ≠ 0 || fragOff pkt &&& 0x2000 ≠ 0

def dynamicNumQueues : BitVec 32 :=
  match maps.queueConfig with
  | some n => if n > 0 then n else 1
  | none => 1

/-- `ip_hash % dynamic_num_queues`. -/
def fragmentQueue : BitVec 32 :=
  (((saddr pkt).setWidth 64 + (daddr pkt).setWidth 64) %
    (dynamicNumQueues maps).setWidth 64).setWidth 32

def targetQueue : BitVec 32 :=
  let target :=
    if etherType pkt = etherTypeIp ∧ isFragment pkt then fragmentQueue maps pkt
    else rxQueueIndex % dynamicNumQueues maps
  if target ≥ dynamicNumQueues maps then 0 else target

def aethonXdpProgMain : XdpVerdict :=
  if etherHeaderLen > len then ⟨.drop,false,none⟩
  else if etherType pkt = etherTypeIp then
    if etherHeaderLen + iphdrLen > len then ⟨.drop,false,none⟩
    else if isFragment pkt ∧ protocol pkt = ipprotoTcp then ⟨.drop,true,none⟩
    else bpfRedirectMap maps (targetQueue maps rxQueueIndex pkt).toNat
  else if etherType pkt = ethPIpv6 then
    if etherHeaderLen + ipv6hdrLen > len then ⟨.drop,false,none⟩
    else bpfRedirectMap maps (targetQueue maps rxQueueIndex pkt).toNat
  else ⟨.pass,true,none⟩

end Program

section Verdicts

variable {maps : XdpMaps} {rxQueueIndex : BitVec 32} {pkt : Nat → UInt8} {len queue : Nat}

/-- The program and the worker agree on what a fragment is. -/
theorem isFragment_iff : isFragment pkt = true ↔ moreFragments pkt = true ∨ fragOffset pkt ≠ 0 := by
  have hlow : fragOff pkt &&& 0x3FFF = fragOff pkt % 2 ^ 14 :=
    Nat.and_two_pow_sub_one_eq_mod (fragOff pkt) 14
  have hoff : fragOff pkt &&& 0x1FFF = fragOff pkt % 2 ^ 13 :=
    Nat.and_two_pow_sub_one_eq_mod (fragOff pkt) 13
  have hflag : fragOff pkt &&& 0x2000 = fragOff pkt / 2 ^ 13 % 2 * 2 ^ 13 := by
    rw [← Nat.toNat_testBit]
    exact Nat.and_two_pow (fragOff pkt) 13
  simp only [isFragment,moreFragments,fragOffset,hlow,hoff,hflag,Bool.or_eq_true,decide_eq_true_eq]
  omega

theorem dynamicNumQueues_pos (maps : XdpMaps) : 0 < (dynamicNumQueues maps).toNat := by
  unfold dynamicNumQueues
  split
  · split_ifs with hpos
    · exact hpos
    · decide
  · decide

theorem targetQueue_lt (maps : XdpMaps) (rxQueueIndex : BitVec 32) (pkt : Nat → UInt8) :
    (targetQueue maps rxQueueIndex pkt).toNat < (dynamicNumQueues maps).toNat := by
  have hpos := dynamicNumQueues_pos maps
  unfold targetQueue
  dsimp only
  generalize (if etherType pkt = etherTypeIp ∧ isFragment pkt then fragmentQueue maps pkt
    else rxQueueIndex % dynamicNumQueues maps) = target
  split_ifs with hge
  · exact hpos
  · exact Nat.not_le.mp hge

/-- The queue of a fragment does not depend on where it was received. -/
theorem targetQueue_fragment (hip : etherType pkt = etherTypeIp) (hfragment : isFragment pkt)
    (rxQueueIndex : BitVec 32) :
    (targetQueue maps rxQueueIndex pkt).toNat =
      ((saddr pkt).toNat + (daddr pkt).toNat) % (dynamicNumQueues maps).toNat := by
  have hpos := dynamicNumQueues_pos maps
  have hn := (dynamicNumQueues maps).isLt
  have hs := (saddr pkt).isLt
  have hd := (daddr pkt).isLt
  have hhash : (fragmentQueue maps pkt).toNat =
      ((saddr pkt).toNat + (daddr pkt).toNat) % (dynamicNumQueues maps).toNat := by
    have hlt := Nat.mod_lt ((saddr pkt).toNat + (daddr pkt).toNat) hpos
    simp only [fragmentQueue,BitVec.toNat_setWidth,BitVec.toNat_umod,BitVec.toNat_add]
    rw [Nat.mod_eq_of_lt (show (saddr pkt).toNat < 2 ^ 64 by omega),
      Nat.mod_eq_of_lt (show (daddr pkt).toNat < 2 ^ 64 by omega),
      Nat.mod_eq_of_lt (show (dynamicNumQueues maps).toNat < 2 ^ 64 by omega),
      Nat.mod_eq_of_lt (show (saddr pkt).toNat + (daddr pkt).toNat < 2 ^ 64 by omega),
      Nat.mod_eq_of_lt (by omega)]
  have hlt : ¬fragmentQueue maps pkt ≥ dynamicNumQueues maps := by
    intro hge
    have hle : (dynamicNumQueues maps).toNat ≤ (fragmentQueue maps pkt).toNat := hge
    rw [hhash] at hle
    exact absurd (Nat.mod_lt _ hpos) (Nat.not_lt.mpr hle)
  simp only [targetQueue,if_pos (And.intro hip hfragment),if_neg hlt,hhash]

theorem bpfRedirectMap_queue {q : Nat} (h : (bpfRedirectMap maps queue).queue = some q) :
    q = queue ∧ queue < aethonMaxQueueSize ∧ maps.xsks queue = true := by
  unfold bpfRedirectMap at h
  split_ifs at h with hfound
  cases h
  exact ⟨rfl,hfound⟩

/-- Other actions than to drop and to pass come from the redirection. -/
theorem action_ne_of_redirect {action : XdpAction} (hdrop : .drop ≠ action) (hpass : .pass ≠ action)
    (h : (bpfRedirectMap maps (targetQueue maps rxQueueIndex pkt).toNat).action ≠ action) :
    (aethonXdpProgMain maps rxQueueIndex pkt len).action ≠ action := by
  unfold aethonXdpProgMain
  split_ifs <;> assumption

/-- What the program knows of a frame that it redirects. -/
structure Redirected (maps : XdpMaps) (rxQueueIndex : BitVec 32) (pkt : Nat → UInt8)
    (queue : Nat) : Prop where
  target : queue = (targetQueue maps rxQueueIndex pkt).toNat
  socket : queue < aethonMaxQueueSize ∧ maps.xsks queue = true
  whole : etherType pkt = etherTypeIp → protocol pkt = ipprotoTcp → isFragment pkt = false

theorem redirected_of_queue
    (h : (aethonXdpProgMain maps rxQueueIndex pkt len).queue = some queue) :
    Redirected maps rxQueueIndex pkt queue := by
  unfold aethonXdpProgMain at h
  split_ifs at h with hshort hip hshort4 hattack hip6
  · obtain ⟨rfl,hsocket⟩ := bpfRedirectMap_queue h
    refine ⟨rfl,hsocket,?_⟩
    intro _ htcp
    by_contra hfragment
    exact hattack ⟨by simpa using hfragment,htcp⟩
  · obtain ⟨rfl,hsocket⟩ := bpfRedirectMap_queue h
    exact ⟨rfl,hsocket,fun hip' => absurd hip' hip⟩

end Verdicts

end Aethon.Ebpf
