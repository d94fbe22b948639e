import Aethon.Pipeline.Handling

/-!
# Wake-ups for buffered data

The epoll flag of a session, the registration of its socket and the buffer for the backend move
together: every connected session is registered with its flag, and the flag is up while data waits.
-/

namespace Aethon.Pipeline

open Framework Tls

/-- Only open descriptors are in the epoll set. -/
def Registered (k : Kernel) : Prop := ∀ fd, k.epoll fd ≠ none → k.sockets fd ≠ none

/-- A connected session is registered with its flag, the flag is up while data waits, and the port
is known. -/
structure Watched (p : Nat) (s : TcpStreamSession) (k : Kernel) : Prop where
  entry : ∀ fd, s.backendFd = some fd → k.epoll fd = some ⟨p,s.epolloutArmed⟩
  armed : s.backendFd ≠ none → s.backendTxBuf ≠ [] → s.epolloutArmed = true
  port : s.backendFd ≠ none → s.backendPort ≠ 0

theorem Watched.of_none {p : Nat} {s : TcpStreamSession} {k : Kernel} (h : s.backendFd = none) :
    Watched p s k :=
  ⟨by simp [h],fun hfd => absurd h hfd,fun hfd => absurd h hfd⟩

/-- The entries of other sessions are those of `k₀`, and the descriptor of the session is not
registered for another one. -/
structure Owning (k₀ : Kernel) (p : Nat) (c : Conn) : Prop where
  addr : c.addr = p
  registered : Registered c.kernel
  others : ∀ fd e, k₀.epoll fd = some e → e.session ≠ p → c.kernel.epoll fd = some e
  owned : ∀ fd e, c.session.backendFd = some fd → c.kernel.epoll fd = some e → e.session = p

structure Watching (k₀ : Kernel) (p : Nat) (c : Conn) : Prop where
  addr : c.addr = p
  registered : Registered c.kernel
  others : ∀ fd e, k₀.epoll fd = some e → e.session ≠ p → c.kernel.epoll fd = some e
  watched : Watched p c.session c.kernel

section Kernel

variable {k : Kernel} {fd : Nat}

theorem Registered.close (h : Registered k) (fd : Nat) : Registered (k.close fd) := by
  intro fd' hentry
  by_cases hfd : fd' = fd
  · subst hfd
    simp [Kernel.close] at hentry
  · simp only [Kernel.close,Function.update_of_ne hfd] at hentry ⊢
    exact h fd' hentry

theorem Registered.closeIfOpen (h : Registered k) (fd : Option Nat) :
    Registered (k.closeIfOpen fd) := by
  cases fd with
  | none => exact h
  | some fd => exact h.close fd

theorem Registered.connect (h : Registered k) (fd : Nat) (port : BitVec 16) :
    Registered (k.connect fd port) := by
  intro fd' hentry
  by_cases hfd : fd' = fd
  · simp [Kernel.connect,hfd]
  · simp only [Kernel.connect,Function.update_of_ne hfd]
    exact h fd' hentry

theorem Registered.epoll_none (h : Registered k) (hfree : k.sockets fd = none) :
    k.epoll fd = none := by
  by_contra hentry
  exact h fd hentry hfree

theorem closeIfOpen_epoll {fd : Option Nat} {fd' : Nat} (h : fd ≠ some fd') :
    (k.closeIfOpen fd).epoll fd' = k.epoll fd' := by
  cases fd with
  | none => rfl
  | some fd => exact Function.update_of_ne (fun heq => h (by rw [heq])) _ _

theorem epollAdd_new {entry : EpollEntry} (h : k.epoll fd = none) :
    k.epollAdd fd entry = { k with epoll := Function.update k.epoll fd (some entry) } := by
  rw [Kernel.epollAdd,if_pos (by rw [h]; rfl)]

theorem epollMod_known {entry e : EpollEntry} (h : k.epoll fd = some e) :
    k.epollMod fd entry = { k with epoll := Function.update k.epoll fd (some entry) } := by
  rw [Kernel.epollMod,if_pos (by rw [h]; rfl)]

end Kernel

namespace Watching

variable {k₀ : Kernel} {p : Nat} {c c' : Conn}

theorem owning (h : Watching k₀ p c) : Owning k₀ p c := by
  refine ⟨h.addr,h.registered,h.others,?_⟩
  intro fd e hfd he
  rw [h.watched.entry fd hfd] at he
  cases he
  rfl

theorem still (h : Watching k₀ p c) (hstill : Still c c') : Watching k₀ p c' := by
  obtain ⟨haddr,hkernel,hfd,hport,hbuf,harmed⟩ := hstill
  refine ⟨haddr.trans h.addr,by rw [hkernel]; exact h.registered,
    by rw [hkernel]; exact h.others,?_,?_,?_⟩
  · rw [hkernel,hfd,harmed]
    exact h.watched.entry
  · rw [hfd,hbuf,harmed]
    exact h.watched.armed
  · rw [hfd,hport]
    exact h.watched.port

theorem route (h : Watching k₀ p c) (io : TlsIo) {svc : ServiceConfig}
    (hport : svc.backendPort ≠ 0) : Watching k₀ p (c.routeTls io (some svc)) := by
  unfold Conn.routeTls
  dsimp only
  split_ifs
  · exact ⟨h.addr,h.registered,h.others,h.watched.entry,h.watched.armed,fun _ => hport⟩
  · exact ⟨h.addr,h.registered,h.others,h.watched.entry,h.watched.armed,fun _ => hport⟩
  · exact h

/-- The registration of the session's own descriptor changes. -/
theorem register {fd : Nat} (haddr : c.addr = p) (hregistered : Registered c.kernel)
    (hothers : ∀ fd e, k₀.epoll fd = some e → e.session ≠ p → c.kernel.epoll fd = some e)
    (hopen : c.kernel.sockets fd ≠ none)
    (hown : ∀ e, c.kernel.epoll fd = some e → e.session = p) {s : TcpStreamSession}
    (hfd : s.backendFd = some fd) (hbuf : s.backendTxBuf ≠ [] → s.epolloutArmed = true)
    (hport : s.backendPort ≠ 0) :
    Watching k₀ p { c with
      session := s
      kernel := { c.kernel with
        epoll := Function.update c.kernel.epoll fd (some ⟨p,s.epolloutArmed⟩) } } := by
  refine ⟨haddr,?_,?_,?_,fun _ => hbuf,fun _ => hport⟩
  · intro fd' hentry
    by_cases hsame : fd' = fd
    · rw [hsame]
      exact hopen
    · exact hregistered fd' (by simpa [Function.update_of_ne hsame] using hentry)
  · intro fd' e he hne
    have hkept := hothers fd' e he hne
    have hsame : fd' ≠ fd := by
      rintro rfl
      exact hne (hown e hkept)
    exact (Function.update_of_ne hsame _ _).trans hkept
  · intro fd' hfd'
    have hsame : fd' = fd := Option.some.inj (hfd'.symm.trans hfd)
    subst hsame
    exact Function.update_self ..

/-- The connection is as before, whatever waits for it now. -/
theorem reused (h : Watching k₀ p c) {fd : Nat} (hfd : c.session.backendFd = some fd)
    (haddr : c'.addr = c.addr) (hkernel : c'.kernel = c.kernel)
    (hfd' : c'.session.backendFd = some fd) (hport : c'.session.backendPort = c.session.backendPort)
    (harmed : c'.session.epolloutArmed = c.session.epolloutArmed) :
    Watching k₀ p (c'.armEpoll true (some fd)) := by
  have hopen : c.session.backendFd ≠ none := by
    rw [hfd]
    exact Option.some_ne_none fd
  have hentry : c'.kernel.epoll fd = some ⟨p,c'.session.epolloutArmed⟩ := by
    rw [hkernel,harmed]
    exact h.watched.entry fd hfd
  have hport' : c'.session.backendPort ≠ 0 := by
    rw [hport]
    exact h.watched.port hopen
  have hregistered : Registered c'.kernel := by
    rw [hkernel]
    exact h.registered
  have hothers : ∀ fd e, k₀.epoll fd = some e → e.session ≠ p → c'.kernel.epoll fd = some e := by
    rw [hkernel]
    exact h.others
  by_cases hwait : c'.session.backendTxBuf ≠ [] ∧ c'.session.epolloutArmed = false
  · have harm : c'.armEpoll true (some fd) = { c' with
        session := { c'.session with epolloutArmed := true }
        kernel := { c'.kernel with
          epoll := Function.update c'.kernel.epoll fd (some ⟨p,true⟩) } } := by
      simp [Conn.armEpoll,hfd',hwait.1,hwait.2,epollMod_known hentry,haddr,h.addr]
    rw [harm]
    refine register (haddr.trans h.addr) hregistered hothers ?_ ?_ hfd' (fun _ => rfl) hport'
    · exact hregistered fd (by rw [hentry]; exact Option.some_ne_none _)
    · intro e he
      rw [hentry] at he
      cases he
      rfl
  · have harm : c'.armEpoll true (some fd) = c' := by
      simp only [Conn.armEpoll,hfd']
      simp only [ne_eq,not_true_eq_false,if_false,Bool.not_eq_true']
      exact if_neg hwait
    rw [harm]
    refine ⟨haddr.trans h.addr,hregistered,hothers,?_,?_,fun _ => hport'⟩
    · intro fd₁ hfd₁
      rw [hfd'] at hfd₁
      cases hfd₁
      exact hentry
    · intro _ hbuf
      by_contra hoff
      exact hwait ⟨hbuf,by simpa using hoff⟩

/-- A new connection is registered at once. -/
theorem connected (h : Watching k₀ p c) {fd : Nat} (hfree : c.kernel.sockets fd = none)
    {port : BitVec 16} (hport : port ≠ 0) (haddr : c'.addr = c.addr)
    (hkernel : c'.kernel = c.kernel.connect fd port) (hfd : c'.session.backendFd = some fd)
    (hport' : c'.session.backendPort = port) : Watching k₀ p (c'.armEpoll true none) := by
  have hnew : c'.kernel.epoll fd = none := by
    rw [hkernel]
    exact h.registered.epoll_none hfree
  have harm : c'.armEpoll true none = { c' with
      session := { c'.session with epolloutArmed := decide (c'.session.backendTxBuf ≠ []) }
      kernel := { c'.kernel with
        epoll := Function.update c'.kernel.epoll fd
          (some ⟨p,decide (c'.session.backendTxBuf ≠ [])⟩) } } := by
    simp [Conn.armEpoll,hfd,epollAdd_new hnew,haddr,h.addr]
  rw [harm]
  refine register (haddr.trans h.addr) ?_ ?_ ?_ ?_ hfd (fun hbuf => by simpa using hbuf)
    (hport' ▸ hport)
  · rw [hkernel]
    exact h.registered.connect fd port
  · rw [hkernel]
    exact h.others
  · simp [hkernel,Kernel.connect]
  · intro e he
    rw [hnew] at he
    cases he

/-- Bytes are forwarded; the port is that of the connection if there is one. -/
theorem forward (h : Watching k₀ p c) {io : BackendIo} {data : List UInt8} {port : BitVec 16}
    (hport : port ≠ 0) (hsame : c.session.backendFd ≠ none → c.session.backendPort = port)
    {ok : Bool} (hrun : c.forwardToBackend io data port = (ok,c')) :
    (ok = false → Owning k₀ p c') ∧
      (ok = true → Watching k₀ p (c'.clearHello.armEpoll true c.session.backendFd)) := by
  unfold Conn.forwardToBackend at hrun
  split at hrun
  · cases hrun
    exact ⟨fun _ => h.owning,by simp⟩
  · split at hrun
    · rename_i hnone
      unfold Conn.reconnect at hrun
      simp only [hnone,Kernel.closeIfOpen] at hrun
      rw [hnone]
      split at hrun
      · cases hrun
        exact ⟨fun _ => ⟨h.addr,h.registered,h.others,by simp⟩,by simp⟩
      · rename_i fd hfd
        have hfree : c.kernel.sockets fd = none := by
          unfold Kernel.socket at hfd
          split at hfd
          · cases hfd
          · split_ifs at hfd with hfree
            cases hfd
            exact hfree
        split_ifs at hrun
        · cases hrun
          refine ⟨fun _ => ?_,by simp⟩
          refine ⟨h.addr,h.registered.connect fd port,h.others,?_⟩
          intro fd₁ e hfd₁ he
          cases hfd₁
          cases (h.registered.epoll_none hfree).symm.trans he
        · cases hrun
          exact ⟨by simp,fun _ => h.connected hfree hport rfl rfl rfl rfl⟩
    · rename_i fd hfd
      rw [if_neg (by simp [hsame (by rw [hfd]; exact Option.some_ne_none fd)])] at hrun
      obtain ⟨haddr,hkernel,hfd',hport'⟩ := c.reuse_frame io fd data
      obtain ⟨_,_,_,_,_,honly,_⟩ := BackendOnly.reuse c io fd data
      rw [hrun] at haddr hkernel hfd' hport' honly
      have harmed : c'.session.epolloutArmed = c.session.epolloutArmed := by
        rw [show c' = _ from honly]
      refine ⟨fun _ => ?_,fun _ => ?_⟩
      · refine ⟨haddr.trans h.addr,by rw [hkernel]; exact h.registered,
          by rw [hkernel]; exact h.others,?_⟩
        rw [hkernel,hfd']
        exact h.owning.owned
      · rw [hfd]
        exact h.reused hfd haddr hkernel (hfd'.trans hfd) hport' harmed

/-- The EPOLLOUT part of a backend event. -/
theorem onWritable (h : Watching k₀ p c) {fd : Nat} (hfd : c.session.backendFd = some fd)
    (ev : BackendEvent) : Watching k₀ p (c.onWritable fd ev) := by
  obtain ⟨haddr,hkernel,hfd',hport⟩ := c.flushBackendTx_frame ev.io
  have harmed : (c.flushBackendTx ev.io).session.epolloutArmed = c.session.epolloutArmed := by
    obtain ⟨_,_,_,_,_,honly,_⟩ := BackendOnly.flushBackendTx c ev.io
    rw [honly]
  have hregistered : Registered (c.flushBackendTx ev.io).kernel := by
    rw [hkernel]
    exact h.registered
  have hothers : ∀ fd e, k₀.epoll fd = some e → e.session ≠ p →
      (c.flushBackendTx ev.io).kernel.epoll fd = some e := by
    rw [hkernel]
    exact h.others
  have hentry := h.watched.entry fd hfd
  have hport' : (c.flushBackendTx ev.io).session.backendPort ≠ 0 := by
    rw [hport]
    exact h.watched.port (by rw [hfd]; exact Option.some_ne_none fd)
  suffices hdisarmed : Watching k₀ p ((c.flushBackendTx ev.io).disarmEpoll fd) from
    hdisarmed.still (Still.announceWindow _ _ _ _)
  unfold Conn.disarmEpoll
  split
  · rename_i hbuf
    have hmod : (c.flushBackendTx ev.io).kernel.epollMod fd ⟨(c.flushBackendTx ev.io).addr,false⟩ =
        { (c.flushBackendTx ev.io).kernel with
          epoll := Function.update (c.flushBackendTx ev.io).kernel.epoll fd (some ⟨p,false⟩) } := by
      rw [haddr,h.addr]
      exact epollMod_known (by rw [hkernel]; exact hentry)
    rw [hmod]
    refine register (haddr.trans h.addr) hregistered hothers ?_ ?_ (hfd'.trans hfd)
      (fun hne => absurd hbuf hne) hport'
    · rw [hkernel]
      exact h.registered fd (by rw [hentry]; exact Option.some_ne_none _)
    · intro e he
      rw [hkernel,hentry] at he
      cases he
      rfl
  · rename_i hbuf
    refine ⟨haddr.trans h.addr,hregistered,hothers,?_,?_,fun _ => hport'⟩
    · rw [hkernel,hfd',harmed]
      exact h.watched.entry
    · rw [hfd',harmed]
      intro hopen _
      apply h.watched.armed hopen
      intro hnil
      apply hbuf
      rw [Conn.flushBackendTx,hfd]
      simp [hnil]

theorem hangUp (h : Watching k₀ p c) {fd : Nat} (hfd : c.session.backendFd = some fd)
    (ev : BackendEvent) : Owning k₀ p (c.hangUp fd ev) := by
  have hentry := h.watched.entry fd hfd
  have hregistered : Registered ((c.kernel.epollDel fd).close fd) := by
    apply Registered.close
    intro fd' hne
    apply h.registered fd'
    intro hnone
    apply hne
    by_cases hsame : fd' = fd
    · simp [Kernel.epollDel,hsame]
    · simp [Kernel.epollDel,hsame,hnone]
  have hothers : ∀ fd' e, k₀.epoll fd' = some e → e.session ≠ p →
      ((c.kernel.epollDel fd).close fd).epoll fd' = some e := by
    intro fd' e he hne
    have hkept := h.others fd' e he hne
    have hsame : fd' ≠ fd := by
      rintro rfl
      rw [hentry] at hkept
      cases hkept
      exact hne rfl
    simpa [Kernel.close,Kernel.epollDel,hsame] using hkept
  have howned : ∀ fd' (e : EpollEntry), (none : Option Nat) = some fd' →
      ((c.kernel.epollDel fd).close fd).epoll fd' = some e → e.session = p := by simp
  unfold Conn.hangUp
  dsimp only
  split
  · exact ⟨h.addr,hregistered,hothers,howned⟩
  · split_ifs
    · exact ⟨h.addr,hregistered,hothers,howned⟩
    · exact ⟨h.addr,hregistered,hothers,howned⟩

/-- A backend event. -/
theorem onBackendEvent (h : Watching k₀ p c) {fd : Nat} (hfd : c.session.backendFd = some fd)
    {ev : BackendEvent} {closed : Bool} (hrun : c.onBackendEvent fd ev = (c',closed)) :
    (closed = false → Watching k₀ p c') ∧ Owning k₀ p c' := by
  have hout : Watching k₀ p (if ev.epollOut then c.onWritable fd ev else c) ∧
      (if ev.epollOut then c.onWritable fd ev else c).session.backendFd = some fd := by
    split_ifs
    · exact ⟨h.onWritable hfd ev,(onWritable_backendFd c ev).trans hfd⟩
    · exact ⟨h,hfd⟩
  unfold Conn.onBackendEvent at hrun
  generalize (if ev.epollOut then c.onWritable fd ev else c) = d at hout hrun
  have hin : Watching k₀ p (if ev.epollIn then d.onReadable ev else (d,false)).1 ∧
      (if ev.epollIn then d.onReadable ev else (d,false)).1.session.backendFd = some fd := by
    split_ifs
    · exact ⟨hout.1.still (Still.onReadable d ev),
        (Still.onReadable d ev).backendFd.trans hout.2⟩
    · exact hout
  dsimp only at hrun
  generalize (if ev.epollIn then d.onReadable ev else (d,false)) = r at hin hrun
  split at hrun
  · cases hrun
    exact ⟨by simp,hin.1.hangUp hin.2 ev⟩
  · cases hrun
    exact ⟨fun _ => hin.1,hin.1.owning⟩

end Watching

/-- The rules for packets. -/
theorem watching_rule {cfg : Config} (hepfd : cfg.epfd = true)
    (hports : ServiceRegistry.Loaded (fun svc => svc.backendPort ≠ 0) cfg.registry) (f : TcpFrame)
    (k₀ : Kernel) (p : Nat) : CallRule cfg f (Watching k₀ p) (Owning k₀ p) where
  still := fun _ _ hstill h => h.still hstill
  weaken := fun _ h => h.owning
  route := by
    intro c sni svc h hselect
    apply h.route
    unfold selectService at hselect
    obtain ⟨found,hfound,hrest⟩ := (bind_ok_iff ..).mp hselect
    cases found with
    | some svc' =>
      cases hrest
      exact hports.findByDomain hfound
    | none => exact hports.findByIpPort hrest
  relay := by
    intro c bytes c' verdict h hrun
    unfold relay at hrun
    obtain ⟨port,hport,hrest⟩ := (bind_ok_iff ..).mp hrun
    have htarget := h.still (Still.emit c (.target port))
    dsimp only at hrest
    split_ifs at hrest with hzero
    · have hsame : c.session.backendFd ≠ none → c.session.backendPort = port := by
        intro hopen
        rw [targetPort,if_neg (h.watched.port hopen)] at hport
        exact Except.ok.inj hport
      have hforward := htarget.still (Still.emit _ (.forward port bytes))
      split at hrest
      · rename_i d hd
        cases hrest
        refine ⟨fun _ => ?_,fun hne => absurd rfl hne⟩
        have howning := (hforward.forward hzero hsame hd).1 rfl
        exact ⟨howning.addr,howning.registered,howning.others,howning.owned⟩
      · rename_i d hd
        cases hrest
        refine ⟨by simp,fun _ => ?_⟩
        rw [hepfd]
        exact ((hforward.forward hzero hsame hd).2 rfl).still (Still.emit _ _)
    · cases hrest
      exact ⟨by simp,fun _ => htarget.still (Still.clearHello _)⟩

/-- The epoll set and the sessions agree. -/
structure WorldWatched (w : World) : Prop where
  registered : Registered w.kernel
  watched : ∀ p s, w.heap.mem p = some s → Watched p s w.kernel

namespace WorldWatched

variable {w : World} {p : Nat} {c : Conn}

theorem conn (h : WorldWatched w) {s₀ s : TcpStreamSession} (hs : w.heap.mem p = some s₀)
    (hsame : s₀.SameOuter s) : Watching w.kernel p (w.conn p s) := by
  obtain ⟨hentry,harmed,hport⟩ := h.watched p s₀ hs
  refine ⟨rfl,h.registered,fun _ _ he _ => he,?_,?_,?_⟩
  · change ∀ fd, s.backendFd = some fd → w.kernel.epoll fd = some ⟨p,s.epolloutArmed⟩
    rw [hsame.backendFd,hsame.epolloutArmed]
    exact hentry
  · change s.backendFd ≠ none → s.backendTxBuf ≠ [] → s.epolloutArmed = true
    rw [hsame.backendFd,hsame.backendTxBuf,hsame.epolloutArmed]
    exact harmed
  · change s.backendFd ≠ none → s.backendPort ≠ 0
    rw [hsame.backendFd,hsame.backendPort]
    exact hport

/-- The other sessions keep their entries. -/
theorem other (h : WorldWatched w) {k : Kernel}
    (hothers : ∀ fd e, w.kernel.epoll fd = some e → e.session ≠ p → k.epoll fd = some e)
    {q : Nat} {s : TcpStreamSession} (hq : q ≠ p) (hs : w.heap.mem q = some s) : Watched q s k :=
  ⟨fun fd hfd => hothers fd _ ((h.watched q s hs).entry fd hfd) hq,(h.watched q s hs).armed,
    (h.watched q s hs).port⟩

theorem put (h : WorldWatched w) (hc : Watching w.kernel p c) : WorldWatched (w.put c) := by
  refine ⟨hc.registered,?_⟩
  intro q s hs
  change (w.heap.set c.addr c.session).mem q = some s at hs
  rw [hc.addr] at hs
  by_cases hq : q = p
  · subst hq
    rw [Heap.set_mem,if_pos rfl] at hs
    obtain ⟨_,_,rfl⟩ := Option.map_eq_some_iff.mp hs
    exact hc.watched
  · rw [Heap.set_mem_of_ne _ _ hq] at hs
    exact h.other hc.others hq hs

theorem free (h : WorldWatched w) (hc : Owning w.kernel p c) :
    WorldWatched ((w.put c).free p c.session) := by
  refine ⟨hc.registered.closeIfOpen _,?_⟩
  intro q s hs
  change ((w.heap.set c.addr c.session).free p).mem q = some s at hs
  by_cases hq : q = p
  · subst hq
    rw [Heap.free_mem_self] at hs
    cases hs
  · rw [Heap.free_mem_of_ne _ hq,hc.addr,Heap.set_mem_of_ne _ _ hq] at hs
    refine h.other ?_ hq hs
    intro fd e he hne
    have hkept := hc.others fd e he hne
    rw [← hkept]
    apply closeIfOpen_epoll
    intro hfd
    exact hne (hc.owned fd e hfd hkept)

theorem opened (h : WorldWatched w) (f : TcpFrame) : WorldWatched (w.opened f) :=
  ⟨h.registered,w.heap.forall_alloc h.watched _ (Watched.of_none rfl)⟩

end WorldWatched

/-- Every move keeps the epoll set in step with the sessions. -/
theorem move_watched {cfg : Config} (hepfd : cfg.epfd = true)
    (hports : ServiceRegistry.Loaded (fun svc => svc.backendPort ≠ 0) cfg.registry)
    {C : CallCondition} {w u : World} {acts : List (Nat × Action)} (h : WorldWatched w)
    (hmove : Move cfg C w acts u) : WorldWatched u := by
  cases hmove with
  | free p s hs =>
    have hfreed := h.free (h.conn hs (.refl s)).owning
    simpa [World.put,World.conn,World.free,Heap.set_free] using hfreed
  | born f c hrun =>
    have hopened := h.opened f
    have hconn := hopened.conn (Heap.alloc_mem_self w.heap (.opened f.packet f.call.nowNs))
      (.refl _)
    exact hopened.put (((watching_rule hepfd hports f _ _).handleResult hconn hrun).2 (by decide))
  | kept p s₀ s f res c verdict hs htakes hrun hopen hc =>
    exact h.put (((watching_rule hepfd hports f _ _).handleResult (h.conn hs htakes.outer) hrun).2
      (Verdict.ne_reset hopen))
  | closed p s₀ s f res c verdict hs htakes hrun hclose hc =>
    have hcall := (watching_rule hepfd hports f _ _).handleResult (h.conn hs htakes.outer) hrun
    apply h.free
    by_cases hreset : verdict = .reset
    · exact hcall.1 hreset
    · exact (hcall.2 hreset).owning
  | event p s fd ev c hs hfd hrun hc =>
    exact h.put (((h.conn hs (.refl s)).onBackendEvent hfd hrun).1 rfl)
  | hungUp p s fd ev c hs hfd hrun hc =>
    exact h.free ((h.conn hs (.refl s)).onBackendEvent hfd hrun).2
  | completion frames => exact ⟨h.registered,h.watched⟩

/-- With an epoll descriptor and services on real ports, data that waits for an open backend socket
has EPOLLOUT armed for it in every state. -/
theorem epollout_armed (cfg : Config) (hepfd : cfg.epfd = true)
    (hports : ServiceRegistry.Loaded (fun svc => svc.backendPort ≠ 0) cfg.registry)
    (txPool : List Nat) (events : List Event) (st : State) (outs : List Output)
    (hrun : runOut (step cfg) (State.new txPool) events = .ok (st,outs)) (p fd : Nat)
    (s : TcpStreamSession) (hs : st.engine.heap.mem p = some s) (hfd : s.backendFd = some fd)
    (hbuf : s.backendTxBuf ≠ []) :
    s.epolloutArmed = true ∧ st.engine.kernel.epoll fd = some ⟨p,true⟩ := by
  have hstart : WorldWatched (State.new txPool).world :=
    ⟨fun _ h => absurd rfl h,fun _ _ hs => by cases hs⟩
  have hmoves := run_moves (C := {}) TcpAssemblerEngine.new_located
    (Along.of_always (fun _ _ => ⟨fun _ _ _ _ _ _ _ _ _ _ _ _ _ _ _ _ => trivial,
      fun _ _ => Along.of_always (fun _ _ _ _ => trivial) _ _⟩) events _) hrun
  have hend : WorldWatched st.world :=
    hmoves.preserves (fun _ _ _ h hmove => move_watched hepfd hports h hmove) hstart
  have hwatched := hend.watched p s hs
  have harmed := hwatched.armed (by rw [hfd]; exact Option.some_ne_none fd) hbuf
  have hentry := hwatched.entry fd hfd
  rw [harmed] at hentry
  exact ⟨harmed,hentry⟩

section Sample

theorem mixedConfig_loaded :
    ServiceRegistry.Loaded (fun svc => svc.backendPort ≠ 0) mixedConfig.registry := by
  have htwo : twoServices = .ok mixedConfig := rfl
  obtain ⟨⟨_,r⟩,hip,hrest⟩ := (bind_ok_iff ..).mp htwo
  obtain ⟨⟨_,r'⟩,hdomain,hret⟩ := (bind_ok_iff ..).mp hrest
  rw [← Except.ok.inj hret]
  exact .domain (.ipPort .new (by decide) hip) (by decide) hdomain

/-- The backend takes the first byte of the client later. -/
def slowBackend : List Event :=
  openingEvents ++
    [.packet { byteFrame thAck 1 0x47 with backend := { socket := some 7 } }]

theorem epollout_armed_slowBackend :
    ∃ st outs s, runOut (step mixedConfig) (State.new []) slowBackend = .ok (st,outs) ∧
      st.engine.heap.mem 1 = some s ∧ s.backendFd = some 7 ∧ s.backendTxBuf = [0x47] ∧
      s.epolloutArmed = true ∧ st.engine.kernel.epoll 7 = some ⟨1,true⟩ :=
  ⟨_,_,_,rfl,rfl,rfl,rfl,epollout_armed mixedConfig rfl mixedConfig_loaded [] slowBackend _ _ rfl 1 7
    _ rfl rfl (by decide)⟩

end Sample

end Aethon.Pipeline
