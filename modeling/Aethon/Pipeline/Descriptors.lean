import Aethon.Pipeline.WakeUps

/-!
# Ownership of the backend sockets

A session owns the socket whose descriptor it holds: it opens it, and it closes it when it
connects elsewhere, when the backend hangs up, and when it is deleted. Over whole runs the open
sockets are therefore those that the live sessions hold, each held by one session.
-/

namespace Aethon.Pipeline

open Framework Tls

/-- Only the epoll set differs. -/
theorem armEpoll_sockets (c : Conn) (epfd : Bool) (prevFd : Option Nat) :
    (c.armEpoll epfd prevFd).kernel.sockets = c.kernel.sockets ∧
      (c.armEpoll epfd prevFd).session.backendFd = c.session.backendFd ∧
      (c.armEpoll epfd prevFd).addr = c.addr := by
  unfold Conn.armEpoll Kernel.epollAdd Kernel.epollMod
  split
  · dsimp only
    split_ifs <;> exact ⟨rfl,rfl,rfl⟩
  · exact ⟨rfl,rfl,rfl⟩

/-- During a call for the session at `p`, the open sockets are the `others`, which belong to other
sessions, and that of the session. -/
structure SocketsKept (others : Nat → Prop) (p : Nat) (c : Conn) : Prop where
  addr : c.addr = p
  opens : ∀ fd, c.kernel.sockets fd ≠ none ↔ others fd ∨ c.session.backendFd = some fd
  apart : ∀ fd, c.session.backendFd = some fd → ¬others fd

namespace SocketsKept

variable {others : Nat → Prop} {p : Nat} {c c' : Conn}

theorem of_frame (h : SocketsKept others p c) (haddr : c'.addr = c.addr)
    (hsockets : c'.kernel.sockets = c.kernel.sockets)
    (hfd : c'.session.backendFd = c.session.backendFd) : SocketsKept others p c' := by
  refine ⟨haddr.trans h.addr,?_,?_⟩
  · rw [hsockets,hfd]
    exact h.opens
  · rw [hfd]
    exact h.apart

theorem still (h : SocketsKept others p c) (hstill : Still c c') : SocketsKept others p c' :=
  h.of_frame hstill.addr (by rw [hstill.kernel]) hstill.backendFd

theorem armEpoll (h : SocketsKept others p c) (epfd : Bool) (prevFd : Option Nat) :
    SocketsKept others p (c.armEpoll epfd prevFd) := by
  obtain ⟨hsockets,hfd,haddr⟩ := armEpoll_sockets c epfd prevFd
  exact h.of_frame haddr hsockets hfd

/-- After the session has closed its socket, only the other ones are open. -/
theorem closed (h : SocketsKept others p c) (fd : Nat) :
    (c.kernel.closeIfOpen c.session.backendFd).sockets fd ≠ none ↔ others fd := by
  cases hown : c.session.backendFd with
  | none =>
    rw [Kernel.closeIfOpen,h.opens,hown]
    simp
  | some own =>
    by_cases hsame : fd = own
    · subst hsame
      simp [Kernel.closeIfOpen,Kernel.close,h.apart fd hown]
    · have hopens := h.opens fd
      rw [hown] at hopens
      simp only [Kernel.closeIfOpen,Kernel.close,Function.update_of_ne hsame]
      rw [hopens]
      simp [Ne.symm hsame]

theorem reconnect (h : SocketsKept others p c) (io : BackendIo) (data : List UInt8)
    (port : BitVec 16) : SocketsKept others p (c.reconnect io data port).2 := by
  have hclosed := h.closed
  unfold Conn.reconnect
  dsimp only
  generalize c.kernel.closeIfOpen c.session.backendFd = k at hclosed
  split
  · refine ⟨h.addr,?_,by simp⟩
    intro fd
    simpa using hclosed fd
  · rename_i fd hfd
    have hfree : k.sockets fd = none := by
      unfold Kernel.socket at hfd
      split at hfd
      · cases hfd
      · split_ifs at hfd with hfree
        cases hfd
        exact hfree
    have hconnected : ∀ fd', (k.connect fd port).sockets fd' ≠ none ↔
        others fd' ∨ some fd = some fd' := by
      intro fd'
      by_cases hsame : fd' = fd
      · simp [Kernel.connect,hsame]
      · simp only [Kernel.connect,Function.update_of_ne hsame]
        rw [hclosed fd']
        simp [Ne.symm hsame]
    have hapart : ∀ fd', some fd = some fd' → ¬others fd' := by
      intro fd' hsame hothers
      cases hsame
      exact (hclosed fd).mpr hothers hfree
    split_ifs
    · exact ⟨h.addr,hconnected,hapart⟩
    · exact ⟨h.addr,hconnected,hapart⟩

theorem forwardToBackend (h : SocketsKept others p c) (io : BackendIo) (data : List UInt8)
    (port : BitVec 16) : SocketsKept others p (c.forwardToBackend io data port).2 := by
  unfold Conn.forwardToBackend
  split
  · exact h
  · split
    · exact h.reconnect io data port
    · rename_i fd _
      split
      · exact h.reconnect io data port
      · obtain ⟨haddr,hkernel,hfd,_⟩ := c.reuse_frame io fd data
        exact h.of_frame haddr (by rw [hkernel]) hfd

theorem routeTls (h : SocketsKept others p c) (io : TlsIo) (svc : Option ServiceConfig) :
    SocketsKept others p (c.routeTls io svc) := by
  unfold Conn.routeTls
  split
  · split
    · exact ⟨h.addr,h.opens,h.apart⟩
    · exact h
  · exact h

theorem relay {cfg : Config} {f : TcpFrame} {bytes : List UInt8} {verdict : Verdict}
    (h : SocketsKept others p c) (hrun : relay cfg f c bytes = .ok (c',verdict)) :
    SocketsKept others p c' := by
  unfold Pipeline.relay at hrun
  obtain ⟨port,_,hrest⟩ := (bind_ok_iff ..).mp hrun
  have htarget := h.still (Still.emit c (.target port))
  dsimp only at hrest
  split_ifs at hrest
  · have hforward := (htarget.still (Still.emit _ (.forward port bytes))).forwardToBackend
      f.backend bytes port
    split at hrest
    · rename_i d hd
      rw [hd] at hforward
      cases hrest
      exact hforward.still (Still.clearHello d)
    · rename_i d hd
      rw [hd] at hforward
      cases hrest
      exact ((hforward.still (Still.clearHello d)).armEpoll _ _).still (Still.emit _ _)
  · cases hrest
    exact htarget.still (Still.clearHello _)

theorem onWritable (h : SocketsKept others p c) (fd : Nat) (ev : BackendEvent) :
    SocketsKept others p (c.onWritable fd ev) := by
  obtain ⟨haddr,hkernel,hfd,_⟩ := c.flushBackendTx_frame ev.io
  have hflushed : SocketsKept others p (c.flushBackendTx ev.io) := h.of_frame haddr (by rw [hkernel]) hfd
  refine SocketsKept.still (c := (c.flushBackendTx ev.io).disarmEpoll fd) ?_
    (Still.announceWindow _ _ _ _)
  unfold Conn.disarmEpoll Kernel.epollMod
  split_ifs
  · exact ⟨hflushed.addr,hflushed.opens,hflushed.apart⟩
  · exact ⟨hflushed.addr,hflushed.opens,hflushed.apart⟩
  · exact hflushed

theorem hangUp (h : SocketsKept others p c) {fd : Nat} (hfd : c.session.backendFd = some fd)
    (ev : BackendEvent) : SocketsKept others p (c.hangUp fd ev) := by
  have hopens : ∀ fd', ((c.kernel.epollDel fd).close fd).sockets fd' ≠ none ↔
      others fd' ∨ (none : Option Nat) = some fd' := by
    intro fd'
    have hclosed := h.closed fd'
    rw [hfd] at hclosed
    change ((c.kernel.epollDel fd).close fd).sockets fd' ≠ none ↔ _ at hclosed
    simpa using hclosed
  unfold Conn.hangUp
  dsimp only
  split
  · exact ⟨h.addr,hopens,by simp⟩
  · split_ifs
    · exact ⟨h.addr,hopens,by simp [Conn.emit]⟩
    · exact ⟨h.addr,hopens,by simp⟩

theorem onBackendEvent (h : SocketsKept others p c) {fd : Nat} (hfd : c.session.backendFd = some fd)
    (ev : BackendEvent) : SocketsKept others p (c.onBackendEvent fd ev).1 := by
  have hout : SocketsKept others p (if ev.epollOut then c.onWritable fd ev else c) ∧
      (if ev.epollOut then c.onWritable fd ev else c).session.backendFd = some fd := by
    split_ifs
    · exact ⟨h.onWritable fd ev,(onWritable_backendFd c ev).trans hfd⟩
    · exact ⟨h,hfd⟩
  unfold Conn.onBackendEvent
  generalize (if ev.epollOut then c.onWritable fd ev else c) = d at hout ⊢
  have hin : SocketsKept others p (if ev.epollIn then d.onReadable ev else (d,false)).1 ∧
      (if ev.epollIn then d.onReadable ev else (d,false)).1.session.backendFd = some fd := by
    split_ifs
    · exact ⟨hout.1.still (Still.onReadable d ev),
        (Still.onReadable d ev).backendFd.trans hout.2⟩
    · exact hout
  dsimp only
  generalize (if ev.epollIn then d.onReadable ev else (d,false)) = r at hin ⊢
  split_ifs
  · exact hin.1.hangUp hin.2 ev
  · exact hin.1

end SocketsKept

theorem holding_rule (cfg : Config) (f : TcpFrame) (others : Nat → Prop) (p : Nat) :
    CallRule cfg f (SocketsKept others p) (SocketsKept others p) where
  still := fun _ _ hstill h => h.still hstill
  weaken := fun _ h => h
  route := fun _ _ svc h _ => h.routeTls f.tls (some svc)
  relay := fun _ _ _ _ h hrun => ⟨fun _ => h.relay hrun,fun _ => h.relay hrun⟩

/-- The socket `fd` is held by the session at `p`. -/
def World.Holds (w : World) (p fd : Nat) : Prop :=
  ∃ s, w.heap.mem p = some s ∧ s.backendFd = some fd

/-- The open sockets are those that the sessions hold, each held by one session. -/
structure Ledger (w : World) : Prop where
  opens : ∀ fd, w.kernel.sockets fd ≠ none ↔ ∃ p, w.Holds p fd
  unique : ∀ p q fd, w.Holds p fd → w.Holds q fd → p = q

namespace Ledger

variable {w : World} {p : Nat} {c : Conn}

/-- The sockets of the sessions other than that at `p`. -/
def others (w : World) (p fd : Nat) : Prop := ∃ q, q ≠ p ∧ w.Holds q fd

theorem conn (h : Ledger w) {s₀ s : TcpStreamSession} (hs : w.heap.mem p = some s₀)
    (hfd : s.backendFd = s₀.backendFd) : SocketsKept (others w p) p (w.conn p s) := by
  refine ⟨rfl,?_,?_⟩
  · intro fd
    change w.kernel.sockets fd ≠ none ↔ _ ∨ s.backendFd = some fd
    rw [h.opens,hfd]
    constructor
    · rintro ⟨q,t,ht,hown⟩
      by_cases hq : q = p
      · subst hq
        rw [hs] at ht
        cases ht
        exact Or.inr hown
      · exact Or.inl ⟨q,hq,t,ht,hown⟩
    · rintro (⟨q,_,hq⟩ | hown)
      · exact ⟨q,hq⟩
      · exact ⟨p,s₀,hs,hown⟩
  · rintro fd hown ⟨q,hq,hheld⟩
    change s.backendFd = some fd at hown
    rw [hfd] at hown
    exact hq (h.unique q p fd hheld ⟨s₀,hs,hown⟩)

/-- A session's call ends, and the session is stored. -/
theorem put (h : Ledger w) {s₀ : TcpStreamSession} (hs : w.heap.mem p = some s₀)
    (hc : SocketsKept (others w p) p c) : Ledger (w.put c) := by
  have hself : ∀ fd, (w.put c).Holds p fd ↔ c.session.backendFd = some fd := by
    intro fd
    unfold World.Holds World.put
    rw [hc.addr,Heap.set_mem_self _ _ hs]
    simp
  have hother : ∀ q fd, q ≠ p → ((w.put c).Holds q fd ↔ w.Holds q fd) := by
    intro q fd hq
    unfold World.Holds World.put
    rw [hc.addr,Heap.set_mem_of_ne _ _ hq]
  constructor
  · intro fd
    change c.kernel.sockets fd ≠ none ↔ _
    rw [hc.opens]
    constructor
    · rintro (⟨q,hq,hheld⟩ | hown)
      · exact ⟨q,(hother q fd hq).mpr hheld⟩
      · exact ⟨p,(hself fd).mpr hown⟩
    · rintro ⟨q,hheld⟩
      by_cases hq : q = p
      · subst hq
        exact Or.inr ((hself fd).mp hheld)
      · exact Or.inl ⟨q,hq,(hother q fd hq).mp hheld⟩
  · intro q r fd hqheld hrheld
    by_cases hq : q = p
    · by_cases hr : r = p
      · rw [hq,hr]
      · subst hq
        exact absurd ⟨r,hr,(hother r fd hr).mp hrheld⟩ (hc.apart fd ((hself fd).mp hqheld))
    · by_cases hr : r = p
      · subst hr
        exact absurd ⟨q,hq,(hother q fd hq).mp hqheld⟩ (hc.apart fd ((hself fd).mp hrheld))
      · exact h.unique q r fd ((hother q fd hq).mp hqheld) ((hother r fd hr).mp hrheld)

/-- A session is deleted and its socket is closed. -/
theorem free (h : Ledger w) {s : TcpStreamSession} (hs : w.heap.mem p = some s) :
    Ledger (w.free p s) := by
  have hholds : ∀ q fd, (w.free p s).Holds q fd ↔ q ≠ p ∧ w.Holds q fd := by
    intro q fd
    unfold World.Holds World.free
    by_cases hq : q = p
    · simp [hq]
    · simp [hq,Heap.free_mem_of_ne]
  constructor
  · intro fd
    have hclosed := (h.conn hs rfl).closed fd
    change (w.kernel.closeIfOpen s.backendFd).sockets fd ≠ none ↔ _
    change (w.kernel.closeIfOpen s.backendFd).sockets fd ≠ none ↔ _ at hclosed
    rw [hclosed]
    simp only [others,hholds]
  · intro q r fd hq hr
    exact h.unique q r fd ((hholds q fd).mp hq).2 ((hholds r fd).mp hr).2

theorem opened (h : Ledger w) (f : TcpFrame) : Ledger (w.opened f) := by
  have hholds : ∀ q fd, (w.opened f).Holds q fd ↔ w.Holds q fd := by
    intro q fd
    unfold World.Holds World.opened
    dsimp only
    rw [Heap.alloc_mem]
    split_ifs with hq
    · rw [hq,w.heap.fresh w.heap.next le_rfl]
      simp [TcpStreamSession.opened]
    · rfl
  constructor
  · intro fd
    change w.kernel.sockets fd ≠ none ↔ _
    simp only [hholds]
    exact h.opens fd
  · intro q r fd hq hr
    exact h.unique q r fd ((hholds q fd).mp hq) ((hholds r fd).mp hr)

/-- A session's call ends, and the session is deleted. -/
theorem closes (h : Ledger w) {s₀ : TcpStreamSession} (hs : w.heap.mem p = some s₀)
    (hc : SocketsKept (others w p) p c) : Ledger ((w.put c).free p c.session) := by
  refine (h.put hs hc).free ?_
  change (w.heap.set c.addr c.session).mem p = _
  rw [hc.addr]
  exact Heap.set_mem_self _ _ hs

end Ledger

theorem move_ledger {cfg : Config} {C : CallCondition} {w u : World}
    {acts : List (Nat × Action)} (h : Ledger w) (hmove : Move cfg C w acts u) :
    Ledger u := by
  cases hmove with
  | free p s hs => exact h.free hs
  | born f c hrun =>
    have hs := Heap.alloc_mem_self w.heap (.opened f.packet f.call.nowNs)
    have hconn := (h.opened f).conn hs rfl
    exact (h.opened f).put hs (((holding_rule cfg f _ _).handleResult hconn hrun).2 (by decide))
  | kept p s₀ s f res c verdict hs htakes hrun hopen hc =>
    have hcall := (holding_rule cfg f _ _).handleResult (h.conn hs htakes.outer.backendFd) hrun
    exact h.put hs (hcall.2 (Verdict.ne_reset hopen))
  | closed p s₀ s f res c verdict hs htakes hrun hclose hc =>
    have hcall := (holding_rule cfg f _ _).handleResult (h.conn hs htakes.outer.backendFd) hrun
    apply h.closes hs
    by_cases hreset : verdict = .reset
    · exact hcall.1 hreset
    · exact hcall.2 hreset
  | event p s fd ev c hs hfd hrun hc =>
    have hevent := (h.conn hs rfl).onBackendEvent hfd ev
    rw [hrun] at hevent
    exact h.put hs hevent
  | hungUp p s fd ev c hs hfd hrun hc =>
    have hevent := (h.conn hs rfl).onBackendEvent hfd ev
    rw [hrun] at hevent
    exact h.closes hs hevent
  | completion frames => exact ⟨h.opens,h.unique⟩

end Aethon.Pipeline
