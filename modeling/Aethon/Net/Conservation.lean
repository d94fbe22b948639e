import Aethon.Net.Emitted
import Aethon.Net.Umem

/-!
# Conservation of frames

Every frame of a queue is in exactly one place at the end of every iteration, as long as the fill
ring takes back the received frames that the completion ring returns. Where it does not, they
are released from the completion ring all the same, and no place holds them any more.
-/

namespace Aethon.Net

open Framework Pipeline

namespace Umem

variable {x : XdpConfig} {cfg : Config} {hostIps : List (BitVec 32)} {u v : Umem x}
  {it : Iteration} {its : List Iteration} {reports : List RxReport}

/-- Every frame is in exactly one place. -/
def Conserved (u : Umem x) : Prop := ∀ i < x.numFrames, u.held (i * x.frameSize) = 1

/-- Received frames among the completed ones find room in the fill ring. -/
def Returned (u : Umem x) (it : Iteration) : Prop :=
  (u.kernelMoves it).rxCompleted it ≠ [] → it.returnReserved = true

/-- Every frame is in one place and nothing else is in any. -/
def Exact (u : Umem x) : Prop := ∀ addr, u.held addr = (x.addrs 0 x.numFrames).count addr

theorem start_exact (x : XdpConfig) : (start x).Exact := by
  intro addr
  have hsplit : x.addrs 0 x.numFrames =
      x.addrs 0 x.fqRingSize ++ x.addrs x.fqRingSize (x.numFrames - x.fqRingSize) := by
    have hfq := x.fq_le
    rw [XdpConfig.addrs,XdpConfig.addrs,XdpConfig.addrs,← List.map_append]
    congr 1
    have happend := List.range'_append_1 (s := 0) (m := x.fqRingSize)
      (n := x.numFrames - x.fqRingSize)
    rw [Nat.zero_add,Nat.add_sub_of_le hfq] at happend
    exact happend.symm
  rw [hsplit,held_eq,List.count_append]
  simp only [start,Worker.new,State.new,RingQueue.contents_new,List.count_nil,List.count_reverse]
  omega

theorem addrs_nodup (x : XdpConfig) : (x.addrs 0 x.numFrames).Nodup := by
  apply List.Nodup.map
  · intro i j h
    exact Nat.eq_of_mul_eq_mul_right x.frameSize_pos h
  · exact List.nodup_range'

theorem mem_addrs {addr : Nat} :
    addr ∈ x.addrs 0 x.numFrames ↔ ∃ i < x.numFrames, i * x.frameSize = addr := by
  simp [XdpConfig.addrs,List.mem_range'_1]

theorem Exact.conserved (h : u.Exact) : u.Conserved := by
  intro i hi
  rw [h]
  exact List.count_eq_one_of_mem (addrs_nodup x) (mem_addrs.mpr ⟨i,hi,rfl⟩)

theorem Exact.length (h : u.Exact) : u.frames.length = x.numFrames := by
  have hperm : u.frames.Perm (x.addrs 0 x.numFrames) := List.perm_iff_count.mpr h
  rw [hperm.length_eq,XdpConfig.addrs,List.length_map,List.length_range']

/-- A fallback ring for all frames is never full when a frame comes back. -/
theorem Exact.room (h : u.Exact) (hfair : u.KernelFair it)
    (hcap : x.numFrames ≤ x.fallbackCapacity) : u.Room it := by
  have hexact : (u.kernelMoves it).Exact := fun addr => (kernelMoves_held hfair addr).trans (h addr)
  have hlen := hexact.length
  have hbatch : ((u.kernelMoves it).batch it).length ≤ (u.kernelMoves it).rx.length :=
    (List.take_prefix ..).length_le
  have hfallback : (u.kernelMoves it).fallback.contents.length = u.fallback.size :=
    RingQueue.contents_length _
  simp only [frames,List.length_append] at hlen
  left
  omega

theorem unreturned_eq_nil (h : u.Returned it) : (u.kernelMoves it).unreturned it = [] := by
  unfold unreturned
  split_ifs with hreserved
  · rfl
  · by_contra hne
    exact hreserved (h hne)

theorem Exact.iteration (h : u.Exact) (hfair : u.KernelFair it) (hroom : u.Room it)
    (hreturned : u.Returned it) (hrun : u.iteration cfg hostIps it = .ok (v,reports)) :
    v.Exact := by
  intro addr
  have hheld := iteration_held hfair hroom hrun addr
  rw [unreturned_eq_nil hreturned,List.count_nil,Nat.add_zero] at hheld
  exact hheld.trans (h addr)

/-- An iteration that drops a frame does not conserve it. -/
theorem Exact.returned (h : u.Exact) (hfair : u.KernelFair it) (hroom : u.Room it)
    (hrun : u.iteration cfg hostIps it = .ok (v,reports)) (hv : v.Conserved) :
    u.Returned it := by
  intro hne
  by_contra hreserved
  obtain ⟨addr,hmem⟩ := List.exists_mem_of_ne_nil _ hne
  have hdropped : 0 < ((u.kernelMoves it).unreturned it).count addr := by
    rw [unreturned,if_neg hreserved]
    exact List.count_pos_iff.mpr hmem
  have hheld := iteration_held hfair hroom hrun addr
  have hone := List.nodup_iff_count_le_one.mp (addrs_nodup x) addr
  rw [h addr] at hheld
  have hpos : 0 < (x.addrs 0 x.numFrames).count addr := by omega
  obtain ⟨i,hi,rfl⟩ := mem_addrs.mp (List.count_pos_iff.mp hpos)
  rw [hv i hi] at hheld
  omega

/-- Every iteration of the run leaves every frame in exactly one place. -/
def ConservedThroughout (cfg : Config) (hostIps : List (BitVec 32)) (u : Umem x)
    (its : List Iteration) : Prop :=
  ∀ before after v outs, its = before ++ after →
    runOut (Umem.iteration cfg hostIps) u before = .ok (v,outs) → v.Conserved

theorem Exact.conservedThroughout {C : Umem x → Iteration → Prop} (h : u.Exact)
    (hstep : ∀ s a t b, s.Exact → C s a → s.iteration cfg hostIps a = .ok (t,b) → t.Exact)
    (hc : Along C (Umem.iteration cfg hostIps) u its) :
    ConservedThroughout cfg hostIps u its := by
  rintro before after v outs rfl hrun
  exact (runOut_invariant (I := fun (s : Umem x) _ => s.Exact)
    (fun s a t b _ hs ha hrun => hstep s a t b hs ha hrun) before u v [] outs h
    hc.append.1 hrun).conserved

theorem Exact.along_returned {outs : List (List RxReport)} (h : u.Exact)
    (hcap : x.numFrames ≤ x.fallbackCapacity)
    (hfair : Along KernelFair (Umem.iteration cfg hostIps) u its)
    (hrun : runOut (Umem.iteration cfg hostIps) u its = .ok (v,outs))
    (hall : ConservedThroughout cfg hostIps u its) :
    Along Returned (Umem.iteration cfg hostIps) u its := by
  induction its generalizing u outs with
  | nil => trivial
  | cons it its ih =>
    obtain ⟨t,b,rest,hone,htail,_⟩ := (runOut_cons ..).mp hrun
    have hroom := h.room hfair.1 hcap
    have hconserved : t.Conserved := hall [it] its t [b] rfl
      ((runOut_cons ..).mpr ⟨t,b,[],hone,rfl,rfl⟩)
    have hreturned := h.returned hfair.1 hroom hone hconserved
    refine ⟨hreturned,?_⟩
    intro t' b' hone'
    rw [hone] at hone'
    cases hone'
    apply ih (h.iteration hfair.1 hroom hreturned hone) (hfair.2 t b hone) htail
    rintro before after w outs rfl hbefore
    exact hall (it :: before) after w (b :: outs) rfl
      ((runOut_cons ..).mpr ⟨t,b,outs,hone,hbefore,rfl⟩)

end Umem

/-- In every run of the loop in which received frames that come back from the completion ring
find room in the fill ring, and recycled frames in the fallback ring or the fill ring, every
iteration leaves every frame in exactly one place. A fallback ring for all frames, as the
default is, always has room, and then frames are conserved only in such runs. -/
theorem frames_conserved (x : XdpConfig) (cfg : Config) (hostIps : List (BitVec 32))
    (its : List Iteration) (u : Umem x) (outs : List (List RxReport))
    (hrun : runOut (Umem.iteration cfg hostIps) (.start x) its = .ok (u,outs))
    (hkernel : Along Umem.KernelFair (Umem.iteration cfg hostIps) (.start x) its) :
    (Along (fun u it => u.Returned it ∧ u.Room it) (Umem.iteration cfg hostIps) (.start x) its →
      Umem.ConservedThroughout cfg hostIps (.start x) its) ∧
    (x.numFrames ≤ x.fallbackCapacity →
      (Umem.ConservedThroughout cfg hostIps (.start x) its ↔
        Along Umem.Returned (Umem.iteration cfg hostIps) (.start x) its)) := by
  have hstart := Umem.start_exact x
  refine ⟨?_,fun hcap => ⟨hstart.along_returned hcap hkernel hrun,?_⟩⟩
  · intro hall
    exact hstart.conservedThroughout
      (fun s a t b hs hc hstep => hs.iteration hc.1 hc.2.2 hc.2.1 hstep) (hkernel.and hall)
  · intro hreturned
    exact hstart.conservedThroughout
      (fun s a t b hs hc hstep => hs.iteration hc.1 (hs.room hc.1 hcap) hc.2 hstep)
      (hkernel.and hreturned)

/-- A ping comes in with frame 0, and the reply goes out with it. -/
def pingIteration : Iteration where
  received := [0]
  rcvd := 1
  packet := fun _ => ({},bufferOf pingFrame,47)

/-- The frame of the reply comes back from the completion ring. -/
def completionIteration (reserved : Bool) : Iteration where
  sent := [0]
  completed := 1
  returnReserved := reserved

def completionRun (reserved : Bool) : List Iteration :=
  [pingIteration,completionIteration reserved]

theorem completionRun_fair (reserved : Bool) :
    Along Umem.KernelFair (Umem.iteration {} []) (.start {}) (completionRun reserved) := by
  have hfirst : (Umem.start {}).KernelFair pingIteration :=
    ⟨List.singleton_subperm_iff.mpr (by decide +kernel),List.nil_subperm⟩
  refine ⟨hfirst,fun t b hone => ⟨⟨List.nil_subperm,?_⟩,fun _ _ _ => trivial⟩⟩
  cases hone
  exact List.singleton_subperm_iff.mpr (by decide +kernel)

theorem frames_conserved_ping :
    ∃ u outs, runOut (Umem.iteration {} []) (.start {}) (completionRun true) = .ok (u,outs) ∧
      Umem.ConservedThroughout {} [] (.start {}) (completionRun true) := by
  obtain ⟨u,outs,hrun⟩ : ∃ u outs, runOut (Umem.iteration {} []) (.start {})
      (completionRun true) = .ok (u,outs) := ⟨_,_,rfl⟩
  have hconserved := frames_conserved {} {} [] (completionRun true) u outs hrun
    (completionRun_fair true)
  exact ⟨u,outs,hrun,(hconserved.2 (by decide)).mpr
    ⟨fun _ => rfl,fun _ _ _ => ⟨fun _ => rfl,fun _ _ _ => trivial⟩⟩⟩

/-- The fill ring has no room when the frame of the reply comes back, and the frame is in no
place any more. -/
theorem reply_frame_lost :
    ∃ (u : Umem {}) (outs : List (List RxReport)),
      runOut (Umem.iteration {} []) (.start {}) (completionRun false) = .ok (u,outs) ∧
      Along Umem.KernelFair (Umem.iteration {} []) (.start {}) (completionRun false) ∧
      u.held 0 = 0 ∧ ¬ Umem.ConservedThroughout {} [] (.start {}) (completionRun false) := by
  refine ⟨_,_,rfl,completionRun_fair false,by decide +kernel,?_⟩
  intro h
  have hone := h (completionRun false) [] _ _ rfl rfl 0 (by decide)
  revert hone
  decide +kernel

end Aethon.Net
