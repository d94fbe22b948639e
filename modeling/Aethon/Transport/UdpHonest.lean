import Aethon.Transport.UdpEngine

/-!
# Fragments of one datagram

When every fragment is a slice of one datagram, a session is complete exactly when the
slices cover the datagram, whatever their order and overlap, and the reassembled bytes are
those the unfragmented path hands to the scanner.
-/

namespace Aethon

open Framework Fragment

/-- A fragment of the datagram `D`. -/
structure FragmentOf (D : List UInt8) (f : Fragment) : Prop where
  aligned : f.offset % 8 = 0
  nonempty : 0 < f.len
  header : f.offset = 0 → 8 ≤ f.len
  fits : f.stop ≤ D.length
  bytes : f.payload = (D.drop f.offset).take f.len
  more : f.moreFragments = true → f.len % 8 = 0
  last : f.moreFragments = false ↔ f.stop = D.length

/-- Every position of the datagram lies in one of the fragments. -/
def Covers (D : List UInt8) (fs : List Fragment) : Prop :=
  ∀ p < D.length, ∃ f ∈ fs, f.offset ≤ p ∧ p < f.stop

/-- The 16-bit big-endian word at an index of the datagram. -/
def headerWord (D : List UInt8) (i : Nat) : Nat :=
  (D.getD i 0).toNat * 256 + (D.getD (i + 1) 0).toNat

theorem Covers.mono {D : List UInt8} {fs gs : List Fragment} (h : Covers D fs)
    (hsub : ∀ f ∈ fs, f ∈ gs) : Covers D gs := by
  intro p hp
  obtain ⟨f,hf,hcov⟩ := h p hp
  exact ⟨f,hsub f hf,hcov⟩

section Honest

variable {D : List UInt8} {f : Fragment} {s : ReassemblySession} {log : List Fragment}

theorem FragmentOf.acceptable (h : FragmentOf D f) (hD : D.length ≤ 65535) : f.Acceptable := by
  refine ⟨(ReassemblySession.checkFragment_iff f).mpr
    ⟨h.more,h.nonempty,h.aligned,h.header⟩,?_⟩
  exact h.fits.trans hD

theorem FragmentOf.byteAt (h : FragmentOf D f) {p : Nat} (hlo : f.offset ≤ p)
    (hhi : p < f.stop) : f.byteAt p = D.getD p 0 := by
  have hlt : p - f.offset < f.len := by
    unfold stop at hhi
    omega
  rw [Fragment.byteAt,h.bytes]
  simp only [List.getD_eq_getElem?_getD]
  rw [List.getElem?_take_of_lt hlt,List.getElem?_drop]
  congr 2
  omega

/-- The last fragment in the log, if there is one, ends the datagram. -/
theorem lastStop_honest (hall : ∀ f ∈ log, FragmentOf D f) {T : Nat}
    (hT : lastStop log = some T) : T = D.length := by
  obtain ⟨f,hmem,hmf,rfl⟩ := lastStop_mem hT
  exact (hall f hmem).last.mp hmf

/-- A block that a fragment owns is written up to the end of the datagram. -/
theorem FragmentOf.fills (h : FragmentOf D f) {b : Nat} (ht : Touches 8 offset stop f b) :
    min 8 (f.stop - b * 8) = min 8 (D.length - b * 8) := by
  have hfits := h.fits
  have halign := h.aligned
  by_cases hend : f.stop = D.length
  · rw [hend]
  · have hmf : f.moreFragments = true := by
      cases hmf : f.moreFragments with
      | true => rfl
      | false => exact absurd (h.last.mp hmf) hend
    have hlen := h.more hmf
    simp only [Touches,stop] at ht hfits hend ⊢
    omega

theorem Covers.written_eq (hall : ∀ f ∈ log, FragmentOf D f) (hcov : Covers D log) (b : Nat) :
    written 8 offset stop log b = min 8 (D.length - b * 8) := by
  by_cases hb : b * 8 < D.length
  · obtain ⟨f,hmem,hlo,hhi⟩ := hcov (b * 8) hb
    have ht : Touches 8 offset stop f b := ⟨by omega,hhi⟩
    obtain ⟨g,hg⟩ := owner_exists hmem ht
    obtain ⟨hgmem,hgt⟩ := owner_touches hg
    rw [written_of_some hg]
    exact (hall g hgmem).fills hgt
  · have hle : written 8 offset stop log b ≤ min 8 (D.length - b * 8) :=
      written_le (fun f hf => (hall f hf).fits) b
    omega

/-- A session fed with fragments of `D` is complete exactly when they cover `D`. -/
theorem complete_iff_covers (hb : s.Built log) (hall : ∀ f ∈ log, FragmentOf D f)
    (hlo : 8 ≤ D.length) (hhi : D.length ≤ 65535) : s.isComplete = true ↔ Covers D log := by
  constructor
  · intro hc p hp
    have hT := lastStop_honest hall (hb.total_eq hc)
    obtain ⟨f,hf,_⟩ := hb.complete_sound hc (fun f hf => hT ▸ (hall f hf).fits) p (hT ▸ hp)
    have hcov := List.find?_some hf
    simp only [decide_eq_true_eq] at hcov
    exact ⟨f,List.mem_of_find?_eq_some hf,hcov⟩
  · intro hcov
    obtain ⟨f,hmem,hflo,hfhi⟩ := hcov (D.length - 1) (by omega)
    have hfits := (hall f hmem).fits
    obtain ⟨T,hT⟩ := lastStop_isSome hmem ((hall f hmem).last.mpr (by omega))
    apply hb.isComplete_iff.mpr
    refine ⟨T,hT,?_⟩
    rw [lastStop_honest hall hT,Finset.sum_congr rfl fun b _ => hcov.written_eq hall b,sum_block]
    omega

theorem complete_total (hb : s.Built log) (hall : ∀ f ∈ log, FragmentOf D f)
    (hc : s.isComplete = true) : s.totalExpectedLen = D.length :=
  lastStop_honest hall (hb.total_eq hc)

theorem complete_buffer (hb : s.Built log) (hall : ∀ f ∈ log, FragmentOf D f)
    (hc : s.isComplete = true) {p : Nat} (hp : p < D.length) : s.buffer p = D.getD p 0 := by
  have hT := complete_total hb hall hc
  obtain ⟨f,hf,hbyte⟩ := hb.complete_sound hc (fun f hf => hT ▸ (hall f hf).fits) p (hT ▸ hp)
  have hcov := List.find?_some hf
  simp only [decide_eq_true_eq] at hcov
  rw [hbyte,(hall f (List.mem_of_find?_eq_some hf)).byteAt hcov.1 hcov.2]

end Honest

namespace UDPassemblerEngine

open SingleThreadHashMap

/-- A call reports the datagram `D`. -/
structure Delivers (D : List UInt8) (res : AssemblyResult) : Prop where
  complete : res.isComplete = true
  srcPort : res.srcPort = headerWord D 0
  dstPort : res.dstPort = headerWord D 2
  payload : res.payload = D.drop 8

theorem completedResult_delivers {D : List UInt8} {s : ReassemblySession} {log : List Fragment}
    (hb : s.Built log) (hall : ∀ f ∈ log, FragmentOf D f) (hc : s.isComplete = true)
    (hlo : 8 ≤ D.length) (p : Nat) : Delivers D (completedResult p s) where
  complete := rfl
  srcPort := by
    simp only [completedResult,ReassemblySession.bufferWord,headerWord]
    rw [complete_buffer hb hall hc (by omega),complete_buffer hb hall hc (by omega)]
  dstPort := by
    simp only [completedResult,ReassemblySession.bufferWord,headerWord]
    rw [complete_buffer hb hall hc (by omega),complete_buffer hb hall hc (by omega)]
  payload := by
    simp only [completedResult,complete_total hb hall hc]
    apply List.ext_getElem
    · simp
    · intro i hi hi'
      simp only [List.length_map,List.length_range] at hi
      simp only [List.getElem_map,List.getElem_range,List.getElem_drop]
      rw [complete_buffer hb hall hc (by omega),List.getD_eq_getElem?_getD,
        List.getElem?_eq_getElem (by omega),Option.getD_some]

theorem Delivers.scan {D : List UInt8} {res : AssemblyResult} (h : Delivers D res)
    (hlo : 8 ≤ D.length) : fragmentPathScan res = fastPathScan D := by
  simp only [fragmentPathScan,fastPathScan,h.complete,h.payload,List.length_drop,ge_iff_le,hlo,
    if_true]

/-- The cleanup of a call drops no session. -/
def NoExpiry (e : UDPassemblerEngine) (c : FragmentCall) : Prop :=
  c.nowNs - e.lastCleanupNs > cleanupIntervalNs →
    ∀ k p s, e.sessions.Stored k p → e.heap.mem p = some s → isExpired c.nowNs s = false

theorem EngineWf.purgeCell_kept {e : UDPassemblerEngine} {logs : FragmentKey → List Fragment}
    (h : EngineWf e logs) {nowNs : BitVec 64}
    (hx : ∀ k p s, e.sessions.Stored k p → e.heap.mem p = some s → isExpired nowNs s = false)
    {i : Nat} (hi : i < e.sessions.capacity) : UDPassemblerEngine.purgeCell nowNs e i = .ok e := by
  unfold UDPassemblerEngine.purgeCell
  by_cases hskipped : (e.sessions.cells i).key = kEmptyFragmentKey ∨ (e.sessions.cells i).val = 0
  · simp only [hskipped,if_true]
    rfl
  · have hst : e.sessions.Stored (e.sessions.cells i).key (e.sessions.cells i).val := by
      refine ⟨i,hi,(entry_eq_some ..).mpr ⟨?_,rfl⟩⟩
      rw [h.emptyKey]
      exact fun hc => hskipped (Or.inl hc)
    obtain ⟨s,hs,_⟩ := h.owns.live _ _ hst
    simp only [hskipped,if_false,hs,hx _ _ s hst hs,Bool.false_eq_true]
    rfl

theorem EngineWf.cleanup_kept {e : UDPassemblerEngine} {logs : FragmentKey → List Fragment}
    (h : EngineWf e logs) {c : FragmentCall} (hx : NoExpiry e c) :
    ∃ now, e.cleanup c.nowNs = .ok { e with lastCleanupNs := now } := by
  unfold UDPassemblerEngine.cleanup
  split_ifs with hdue
  · obtain ⟨t,ht,rfl⟩ := foldlM_invariant (I := fun t => t = e)
      (List.range e.sessions.capacity)
      (by
        intro t i hi hte
        subst hte
        exact ⟨t,h.purgeCell_kept (hx hdue) (List.mem_range.mp hi),rfl⟩)
      e rfl
    refine ⟨c.nowNs,?_⟩
    rw [bind_ok_iff]
    exact ⟨t,ht,rfl⟩
  · exact ⟨e.lastCleanupNs,rfl⟩

/-- The engine holds at most the session of `key`, which has accepted exactly `done`. -/
def Collecting (key : FragmentKey) (e : UDPassemblerEngine) (done : List Fragment) : Prop :=
  ∃ logs, EngineWf e logs ∧ (∀ k p, e.sessions.Stored k p → k = key) ∧
    ((done = [] ∧ ∀ p, ¬ e.sessions.Stored key p) ∨
      (logs key = done ∧ ∃ p, e.sessions.Stored key p))

theorem new_collecting (key : FragmentKey) : Collecting key new [] :=
  ⟨fun _ => [],new_engineWf _,fun k p hst => (new_not_stored _ _ _ _ k p hst).elim,
    Or.inl ⟨rfl,fun p hst => new_not_stored _ _ _ _ key p hst⟩⟩

section Run

variable {D : List UInt8} {key : FragmentKey} {e : UDPassemblerEngine} {done : List Fragment}

/-- Feeding the only session with one more fragment of `D`. -/
theorem feed_honest {logs : FragmentKey → List Fragment} {p : Nat} {s : ReassemblySession}
    {f : Fragment} (hwf : EngineWf e logs) (hst : e.sessions.Stored key p)
    (hs : e.heap.mem p = some s) (honly : ∀ k q, e.sessions.Stored k q → k = key)
    (hall : ∀ g ∈ logs key ++ [f], FragmentOf D g) (hlen : (logs key).length < 64)
    (hlo : 8 ≤ D.length) (hhi : D.length ≤ 65535) :
    ∃ u res, e.feedSession key p f = .ok (u,res) ∧
      ((Covers D (logs key ++ [f]) ∧ Delivers D res ∧ ∃ logs', EngineWf u logs') ∨
        (¬ Covers D (logs key ++ [f]) ∧ res.isComplete = false ∧
          Collecting key u (logs key ++ [f]))) := by
  have hb := hwf.built hst hs
  have hacc : (s.addFragment f).1 = true := by
    apply (ReassemblySession.addFragment_fst s f).mpr
    exact ⟨(hall f (by simp)).acceptable hhi,by rw [hb.count]; exact hlen⟩
  have hb' := hb.addFragment hacc
  have hiff := complete_iff_covers hb' hall hlo hhi
  obtain ⟨u,res,hfeed,hwf',_,hstored,_,hres⟩ := hwf.feedSession hst hs f
  refine ⟨u,res,hfeed,?_⟩
  cases hc : (s.addFragment f).2.isComplete with
  | true =>
    refine Or.inl ⟨hiff.mp hc,?_,_,hwf'⟩
    rw [hres,if_pos (by simp [hacc,hc])]
    exact completedResult_delivers hb' hall hc hlo p
  | false =>
    refine Or.inr ⟨?_,?_,_,hwf',?_,Or.inr ⟨?_,p,?_⟩⟩
    · intro hcov
      rw [hiff.mpr hcov] at hc
      cases hc
    · rw [hres,if_neg (by simp [hc])]
    · intro k q hk
      exact honly k q ((hstored k q).mp hk).1
    · rw [Function.update_self,extendLog,if_pos hacc]
    · exact (hstored key p).mpr ⟨hst,Or.inr ⟨hacc,hc⟩⟩

/-- One call with a fragment of `D`. -/
theorem Collecting.step (h : Collecting key e done) (hkey : key ≠ kEmptyFragmentKey)
    {c : FragmentCall} (hx : NoExpiry e c) (halloc : c.allocated = true)
    (hall : ∀ g ∈ done ++ [c.fragment], FragmentOf D g) (hlen : done.length < 64)
    (hlo : 8 ≤ D.length) (hhi : D.length ≤ 65535) :
    ∃ u res, processFragment key e c = .ok (u,res) ∧
      ((Covers D (done ++ [c.fragment]) ∧ Delivers D res ∧ ∃ logs, EngineWf u logs) ∨
        (¬ Covers D (done ++ [c.fragment]) ∧ res.isComplete = false ∧
          Collecting key u (done ++ [c.fragment]))) := by
  obtain ⟨logs,hwf,honly,hcase⟩ := h
  obtain ⟨now,hclean⟩ := hwf.cleanup_kept hx
  have hwft : EngineWf { e with lastCleanupNs := now } logs := ⟨hwf.owns,hwf.emptyKey⟩
  rcases hcase with ⟨rfl,hnone⟩ | ⟨rfl,p,hst⟩
  · obtain ⟨slot,hfind⟩ := e.sessions.find_ok key (by rwa [hwf.emptyKey])
    have hslot : slot = none := by
      cases slot with
      | none => rfl
      | some q => exact absurd (hwf.owns.wf.find_stored hfind) (hnone q)
    subst hslot
    have hsize : e.sessions.size = 0 := by
      rw [hwf.owns.wf.size_eq,Finset.card_eq_zero]
      apply Finset.eq_empty_of_forall_notMem
      intro i hi
      obtain ⟨hlt,hne⟩ := (mem_occupied ..).mp hi
      have hsti : e.sessions.Stored (e.sessions.cells i).key (e.sessions.cells i).val :=
        ⟨i,hlt,(entry_eq_some ..).mpr ⟨hne,rfl⟩⟩
      have hk := honly _ _ hsti
      rw [hk] at hsti
      exact hnone _ hsti
    obtain ⟨t,q,hcall,_,hwf',hmem,_,hstored⟩ := hwft.call_new hkey hclean hfind
      (by rw [show _ = 0 from hsize]; decide) halloc
    rw [hcall]
    have hfeed := feed_honest (D := D) hwf' ((hstored key q).mpr (Or.inl ⟨rfl,rfl⟩)) hmem
      (by
        intro k r hk
        rcases (hstored k r).mp hk with hk | hk
        · exact hk.1
        · exact honly k r hk.2)
      (by simpa using hall) (by simp) hlo hhi
    simpa using hfeed
  · have hfind := hwf.owns.wf.find_alone hst honly
    obtain ⟨s,hst',hs,hcall,_⟩ := hwft.call_found hclean hfind
    rw [hcall]
    exact feed_honest hwft hst' hs honly hall hlen hlo hhi

/-- A run over fragments of `D`: either they never cover `D` and nothing is reported, or the
first call that covers `D` is the first to report and it reports `D`. -/
theorem Collecting.run (calls : List FragmentCall) (h : Collecting key e done)
    (hkey : key ≠ kEmptyFragmentKey) (hx : Along NoExpiry (processFragment key) e calls)
    (halloc : ∀ c ∈ calls, c.allocated = true)
    (hall : ∀ g ∈ done ++ calls.map FragmentCall.fragment, FragmentOf D g)
    (hlen : done.length + calls.length ≤ 64) (hlo : 8 ≤ D.length) (hhi : D.length ≤ 65535)
    (hnot : ¬ Covers D done) :
    ∃ u outs, runOut (processFragment key) e calls = .ok (u,outs) ∧
      ((¬ Covers D (done ++ calls.map FragmentCall.fragment) ∧
          ∀ res ∈ outs, res.isComplete = false) ∨
        ∃ pre c post opre res opost, calls = pre ++ c :: post ∧ outs = opre ++ res :: opost ∧
          opre.length = pre.length ∧ (∀ r ∈ opre, r.isComplete = false) ∧ Delivers D res ∧
          ¬ Covers D (done ++ pre.map FragmentCall.fragment) ∧
          Covers D (done ++ (pre ++ [c]).map FragmentCall.fragment)) := by
  induction calls generalizing e done with
  | nil => exact ⟨e,[],rfl,Or.inl ⟨by simpa using hnot,by simp⟩⟩
  | cons c calls ih =>
    have hlen' : done.length + (calls.length + 1) ≤ 64 := by simpa using hlen
    obtain ⟨u,res,hcall,hcase⟩ := h.step hkey hx.1 (halloc c (by simp))
      (fun g hg => hall g (by
        rcases List.mem_append.mp hg with hg | hg
        · simp [hg]
        · simp [List.mem_singleton.mp hg])) (by omega) hlo hhi
    rcases hcase with ⟨hcov,hdel,logs,hwf⟩ | ⟨hncov,hinc,hcol⟩
    · obtain ⟨v,outs,hrun⟩ := runOut_total (C := fun _ _ => True)
        (I := fun t => ∃ logs, EngineWf t logs)
        (by
          intro t a ht _
          obtain ⟨logs,ht⟩ := ht
          obtain ⟨w,r,log,hw,_,hwf,_⟩ := ht.processFragment hkey a
          exact ⟨w,r,hw,_,hwf⟩)
        calls u ⟨logs,hwf⟩ (Along.of_forall (P := fun _ => True) calls u (by simp))
      exact ⟨v,res :: outs,(runOut_cons ..).mpr ⟨u,res,outs,hcall,hrun,rfl⟩,
        Or.inr ⟨[],c,calls,[],res,outs,rfl,rfl,rfl,by simp,hdel,by simpa using hnot,
          by simpa using hcov⟩⟩
    · obtain ⟨v,outs,hrun,hres⟩ := ih hcol (hx.2 u res hcall)
        (fun a ha => halloc a (by simp [ha])) (by simpa using hall) (by simp; omega) hncov
      refine ⟨v,res :: outs,(runOut_cons ..).mpr ⟨u,res,outs,hcall,hrun,rfl⟩,?_⟩
      rcases hres with ⟨hnever,hnone⟩ |
        ⟨pre,a,post,opre,r,opost,rfl,rfl,hl,hnone,hdel,hn,hc⟩
      · refine Or.inl ⟨by simpa using hnever,?_⟩
        intro r hr
        rcases List.mem_cons.mp hr with rfl | hr
        · exact hinc
        · exact hnone r hr
      · refine Or.inr ⟨c :: pre,a,post,res :: opre,r,opost,rfl,rfl,by simp [hl],?_,hdel,
          by simpa using hn,by simpa using hc⟩
        intro r' hr'
        rcases List.mem_cons.mp hr' with rfl | hr'
        · exact hinc
        · exact hnone r' hr'

end Run

/-- Call number `n` reports a datagram. -/
def ReportsAt (outs : List AssemblyResult) (n : Nat) : Prop :=
  ∃ res, outs[n]? = some res ∧ res.isComplete = true

/-- The fragments of calls `0` to `n` cover the datagram. -/
def CoversAt (D : List UInt8) (calls : List FragmentCall) (n : Nat) : Prop :=
  n < calls.length ∧ Covers D ((calls.take (n + 1)).map FragmentCall.fragment)

theorem coversAt_take {D : List UInt8} {pre post : List FragmentCall} {c : FragmentCall} {n : Nat}
    (h : CoversAt D (pre ++ c :: post) n) (hn : n < pre.length) :
    Covers D (pre.map FragmentCall.fragment) := by
  apply h.2.mono
  intro f hf
  rw [List.take_append_of_le_length (by omega)] at hf
  obtain ⟨a,ha,rfl⟩ := List.mem_map.mp hf
  exact List.mem_map.mpr ⟨a,List.mem_of_mem_take ha,rfl⟩

/-- Fragments of `D` given to a new engine: the first call that reports a datagram is the
first after which `D` is covered, and it hands over what the unfragmented path scans. -/
theorem honest_run (D : List UInt8) (hlo : 8 ≤ D.length) (hhi : D.length ≤ 65535)
    (key : FragmentKey) (hkey : key ≠ kEmptyFragmentKey) (calls : List FragmentCall)
    (hlen : calls.length ≤ 64) (hall : ∀ c ∈ calls, FragmentOf D c.fragment)
    (halloc : ∀ c ∈ calls, c.allocated = true)
    (hx : Along NoExpiry (processFragment key) new calls) :
    ∃ u outs, runOut (processFragment key) new calls = .ok (u,outs) ∧
      (∀ n, IsLeast {i | ReportsAt outs i} n ↔ IsLeast {i | CoversAt D calls i} n) ∧
      ∀ n res, IsLeast {i | ReportsAt outs i} n → outs[n]? = some res →
        Delivers D res ∧ fragmentPathScan res = fastPathScan D := by
  have hnot : ¬ Covers D [] := by
    intro hcov
    obtain ⟨f,hf,_⟩ := hcov 0 (by omega)
    cases hf
  obtain ⟨u,outs,hrun,hcase⟩ := (new_collecting key).run calls hkey hx halloc
    (by
      intro g hg
      obtain ⟨c,hc,rfl⟩ := List.mem_map.mp (by simpa using hg)
      exact hall c hc)
    (by simpa using hlen) hlo hhi hnot
  refine ⟨u,outs,hrun,?_⟩
  rcases hcase with ⟨hnever,hnone⟩ |
    ⟨pre,c,post,opre,res,opost,rfl,rfl,hl,hnone,hdel,hn,hcov⟩
  · have hrep : ∀ i, ¬ ReportsAt outs i := by
      intro i hi
      obtain ⟨r,hr,hc⟩ := hi
      rw [hnone r (List.mem_of_getElem? hr)] at hc
      cases hc
    have hcv : ∀ i, ¬ CoversAt D calls i := by
      intro i hi
      apply hnever
      apply hi.2.mono
      intro f hf
      obtain ⟨a,ha,rfl⟩ := List.mem_map.mp hf
      exact List.mem_map.mpr ⟨a,List.mem_of_mem_take ha,rfl⟩
    exact ⟨fun n => ⟨fun h => absurd h.1 (hrep n),fun h => absurd h.1 (hcv n)⟩,
      fun n _ h => absurd h.1 (hrep n)⟩
  · have hrep : IsLeast {i | ReportsAt (opre ++ res :: opost) i} pre.length := by
      refine ⟨⟨res,by simp [← hl],hdel.complete⟩,?_⟩
      intro i hi
      by_contra hlt
      obtain ⟨r,hr,hc⟩ := hi
      rw [List.getElem?_append_left (by omega)] at hr
      rw [hnone r (List.mem_of_getElem? hr)] at hc
      cases hc
    have hcv : IsLeast {i | CoversAt D (pre ++ c :: post) i} pre.length := by
      refine ⟨⟨by simp,?_⟩,?_⟩
      · have htake : (pre ++ c :: post).take (pre.length + 1) = pre ++ [c] := by
          rw [List.take_length_add_append]
          rfl
        rw [htake]
        simpa using hcov
      · intro i hi
        by_contra hlt
        exact hn (by simpa using coversAt_take hi (by omega))
    refine ⟨fun n => ⟨fun h => h.unique hrep ▸ hcv,fun h => h.unique hcv ▸ hrep⟩,?_⟩
    intro n r h hr
    rw [h.unique hrep,← hl,List.getElem?_append_right le_rfl] at hr
    simp only [Nat.sub_self,List.getElem?_cons_zero,Option.some.injEq] at hr
    subst hr
    exact ⟨hdel,hdel.scan hlo⟩

/-- The bytes 0 to 18 in two overlapping fragments, the last one first. -/
def sampleDatagram : List UInt8 := [0,1,2,3,4,5,6,7,8,9,10,11,12,13,14,15,16,17,18]

theorem offset_lt (offset : BitVec 16) : offset.toNat < 65536 := offset.isLt

def sampleFragment (offset : BitVec 16) (payload : List UInt8) (moreFragments : Bool)
    (h : payload.length < 65536) : FragmentCall :=
  ⟨⟨offset.toNat,payload,moreFragments,offset_lt offset,h⟩,0,true⟩

def sampleCalls : List FragmentCall :=
  [sampleFragment 8 (sampleDatagram.drop 8) false (by decide),
    sampleFragment 0 (sampleDatagram.take 16) true (by decide)]

theorem honest_run_sample :
    (Along NoExpiry (processFragment sampleKey) new sampleCalls ∧
      ∀ c ∈ sampleCalls, FragmentOf sampleDatagram c.fragment) ∧
    ∃ u outs, runOut (processFragment sampleKey) new sampleCalls = .ok (u,outs) ∧
      (∀ n, IsLeast {i | ReportsAt outs i} n ↔
        IsLeast {i | CoversAt sampleDatagram sampleCalls i} n) ∧
      ∀ n res, IsLeast {i | ReportsAt outs i} n → outs[n]? = some res →
        Delivers sampleDatagram res ∧
          fragmentPathScan res = fastPathScan sampleDatagram := by
  have hall : ∀ c ∈ sampleCalls, FragmentOf sampleDatagram c.fragment := by
    intro c hc
    simp only [sampleCalls,List.mem_cons,List.not_mem_nil,or_false] at hc
    rcases hc with rfl | rfl <;> constructor <;> decide
  have hx : Along NoExpiry (processFragment sampleKey) new sampleCalls := by
    refine ⟨fun h => absurd h (by decide),?_⟩
    intro t b hb
    cases hb
    exact ⟨fun h => absurd h (by decide),fun _ _ _ => trivial⟩
  exact ⟨⟨hx,hall⟩,honest_run sampleDatagram (by decide) (by decide) sampleKey (by decide)
    sampleCalls (by decide) hall (by decide) hx⟩

end UDPassemblerEngine

end Aethon
