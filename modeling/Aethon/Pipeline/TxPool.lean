import Aethon.Pipeline.ConnRule
import Aethon.Pipeline.Segmentation

/-!
# What the transmit pool is spent on

The pipeline takes a frame from the back of the pool for every data or FIN segment that goes on
the transmit ring, and puts it back when the ring has no room. So the pool loses exactly one
frame for every such segment in the log.
-/

namespace Aethon.Pipeline

open Framework

/-- The action puts a frame of the pool on the transmit ring. -/
def Action.sends (a : Action) : Bool := a.number.isSome

/-- The frames of the pool are spent on the segments that are logged. -/
def Spends (c c' : Conn) : Prop :=
  ∃ acts, c'.log = c.log ++ acts ∧ c'.txPool = c.txPool.drop (acts.countP Action.sends)

namespace Spends

theorem same {c c' : Conn} (hlog : c'.log = c.log) (hpool : c'.txPool = c.txPool) :
    Spends c c' := ⟨[],by rw [hlog,List.append_nil],hpool⟩

theorem trans {a b c : Conn} (h : Spends a b) (h' : Spends b c) : Spends a c := by
  obtain ⟨acts,hlog,hpool⟩ := h
  obtain ⟨acts',hlog',hpool'⟩ := h'
  refine ⟨acts ++ acts',by rw [hlog',hlog,List.append_assoc],?_⟩
  rw [hpool',hpool,List.drop_drop,List.countP_append]

theorem of_quiet {c c' : Conn} {acts : List Action} (hlog : c'.log = c.log ++ acts)
    (hacts : ∀ a ∈ acts, a.sends = false) (hpool : c'.txPool = c.txPool) : Spends c c' := by
  refine ⟨acts,hlog,?_⟩
  rw [List.countP_eq_zero.mpr (by simpa using hacts),List.drop_zero,hpool]

theorem emit (c : Conn) {a : Action} (h : a.number = none) : Spends c (c.emit a) :=
  of_quiet rfl (by simp [Action.sends,h]) rfl

theorem backendOnly {c c' : Conn} (h : BackendOnly c c') : Spends c c' := by
  obtain ⟨_,_,_,_,acts,rfl,hacts⟩ := h
  refine of_quiet rfl ?_ rfl
  intro a ha
  obtain ⟨_,_,rfl⟩ := Action.eq_write (hacts a ha)
  rfl

theorem countP_segmentsOf (window : Nat) (ackNo n : BitVec 32) (chunks : List (List UInt8)) :
    (segmentsOf window ackNo n chunks).countP Action.sends = chunks.length := by
  induction chunks generalizing n with
  | nil => rfl
  | cons chunk chunks ih =>
    rw [segmentsOf_cons,List.countP_cons_of_pos (by rfl),ih,List.length_cons]

theorem sendTcpSegmentedData (c : Conn) (sent : Nat → Bool) (data : List UInt8) :
    Spends c (c.sendTcpSegmentedData sent data).2 := by
  unfold Conn.sendTcpSegmentedData
  split_ifs
  · exact same rfl rfl
  · obtain ⟨chunks,h⟩ := sendSegments_chunks sent (recvWindow c.session) c.session.rcvNxt
      c.txPool 0 c.session.sendNxt data
    refine ⟨_,rfl,?_⟩
    dsimp only
    rw [h.log,countP_segmentsOf,h.pool]

theorem announceWindow (c : Conn) (ev : BackendEvent) (oldWin newWin : Nat) :
    Spends c (c.announceWindow ev oldWin newWin) := by
  unfold Conn.announceWindow
  split
  · exact same rfl rfl
  · rename_i frame pool hpool
    split_ifs
    · refine ⟨_,rfl,?_⟩
      rw [hpool]
      rfl
    · exact same rfl rfl

theorem hangUp (c : Conn) (fd : Nat) (ev : BackendEvent) : Spends c (c.hangUp fd ev) := by
  unfold Conn.hangUp
  dsimp only
  split
  · exact same rfl rfl
  · rename_i frame pool hpool
    split_ifs
    · refine ⟨_,rfl,?_⟩
      change pool = c.txPool.drop 1
      rw [hpool]
      rfl
    · exact same rfl rfl

theorem rule : ConnRule Spends where
  refl _ := same rfl rfl
  trans _ _ _ := trans
  emit c _ ha := emit c ha
  session _ _ _ := same rfl rfl
  backend _ _ := backendOnly
  epoll _ _ _ := same rfl rfl
  segments := sendTcpSegmentedData
  update := announceWindow

theorem handleResult {cfg : Config} {f : TcpFrame} {c c' : Conn} {verdict : Verdict}
    {res : TcpAssemblyResult} (h : handleResult cfg f c res = .ok (c',verdict)) :
    Spends c c' := by
  have hnote := rule.noteDelivery c res
  unfold Pipeline.handleResult at h
  dsimp only at h
  split_ifs at h
  · cases h
    exact hnote.trans (of_quiet rfl (by simp [Action.sends,Action.number]) rfl)
  · cases h
    exact hnote.trans (emit _ rfl)
  · exact hnote.trans (rule.handleReady h)
  · cases h
    exact hnote

theorem onBackendEvent (c : Conn) (fd : Nat) (ev : BackendEvent) :
    Spends c (c.onBackendEvent fd ev).1 := by
  have hbefore := rule.event.beforeHangUp c fd ev
  rw [onBackendEvent_eq]
  split_ifs
  · exact hbefore.trans (hangUp _ fd ev)
  · exact hbefore

end Spends

/-- The frames of the pool that a call puts on the transmit ring. -/
def spentFrames (acts : List (Nat × Action)) : Nat := acts.countP fun a => a.2.sends

theorem spentFrames_append (acts acts' : List (Nat × Action)) :
    spentFrames (acts ++ acts') = spentFrames acts + spentFrames acts' := List.countP_append

theorem spentFrames_tagged (c : Conn) : spentFrames c.tagged = c.log.countP Action.sends := by
  rw [spentFrames,Conn.tagged,List.countP_map]
  rfl

theorem Spends.tagged {p : Nat} {s : TcpStreamSession} {k : Kernel} {txPool : List Nat} {c : Conn}
    (h : Spends ⟨p,s,k,txPool,[]⟩ c) : c.txPool = txPool.drop (spentFrames c.tagged) := by
  obtain ⟨acts,hlog,hpool⟩ := h
  rw [spentFrames_tagged,hlog,hpool]
  rfl

theorem closeSession_txPool {st st' : State} {key : TcpKey} (h : st.closeSession key = .ok st') :
    st'.txPool = st.txPool := by
  obtain ⟨_,_,hret⟩ := (bind_ok_iff ..).mp h
  cases hret
  rfl

/-- A packet takes from the pool what it sends in frames of the pool. -/
theorem handleTcpPacket_txPool {cfg : Config} {st st' : State} {f : TcpFrame} {out : Output}
    (h : handleTcpPacket cfg st f = .ok (st',out)) :
    st'.txPool = st.txPool.drop (spentFrames out.actions) := by
  unfold handleTcpPacket at h
  split_ifs at h
  · cases h
    rfl
  · obtain ⟨⟨engine,res⟩,_,hrest⟩ := (bind_ok_iff ..).mp h
    dsimp only at hrest
    split at hrest
    · split_ifs at hrest
      · obtain ⟨t,hclose,hret⟩ := (bind_ok_iff ..).mp hrest
        cases hret
        exact (closeSession_txPool hclose).trans rfl
      · cases hrest
        rfl
    · split at hrest
      · cases hrest
      · obtain ⟨⟨c,verdict⟩,hc,hfinish⟩ := (bind_ok_iff ..).mp hrest
        have hspends := Spends.handleResult hc
        cases verdict with
        | reply =>
          cases hfinish
          exact hspends.tagged
        | silent =>
          cases hfinish
          exact hspends.tagged
        | reset =>
          obtain ⟨t,hclose,hret⟩ := (bind_ok_iff ..).mp hfinish
          cases hret
          exact (closeSession_txPool hclose).trans (hspends.trans (Spends.emit c rfl)).tagged
        | proceed =>
          simp only [finish] at hfinish
          split_ifs at hfinish
          · obtain ⟨t,hclose,hret⟩ := (bind_ok_iff ..).mp hfinish
            cases hret
            exact (closeSession_txPool hclose).trans hspends.tagged
          · cases hfinish
            exact hspends.tagged

theorem drainOne_txPool {st st' : State} {pe : Nat × BackendEvent} {acts : List (Nat × Action)}
    (h : drainOne st pe = .ok (st',acts)) : st'.txPool = st.txPool.drop (spentFrames acts) := by
  unfold drainOne at h
  split at h
  · cases h
  · rename_i s hs
    split at h
    · cases h
      rfl
    · rename_i fd hfd
      have hspends := Spends.onBackendEvent ⟨pe.1,s,st.engine.kernel,st.txPool,[]⟩ fd pe.2
      dsimp only at h
      split_ifs at h
      · obtain ⟨t,hclose,hret⟩ := (bind_ok_iff ..).mp h
        cases hret
        exact (closeSession_txPool hclose).trans hspends.tagged
      · cases h
        exact hspends.tagged

theorem drainAll_txPool {st st' : State} {ready : List (Nat × BackendEvent)}
    {logs : List (List (Nat × Action))} (h : runOut drainOne st ready = .ok (st',logs)) :
    st'.txPool = st.txPool.drop (spentFrames logs.flatten) := by
  induction ready generalizing st logs with
  | nil =>
    cases h
    rfl
  | cons pe ready ih =>
    obtain ⟨u,acts,rest,hone,htail,rfl⟩ := (runOut_cons ..).mp h
    rw [ih htail,drainOne_txPool hone,List.drop_drop,List.flatten_cons,spentFrames_append]

/-- So do the backend events. -/
theorem drainBackendEvents_txPool {cfg : Config} {st st' : State} {events : List BackendEvent}
    {out : Output} (h : drainBackendEvents cfg st events = .ok (st',out)) :
    st'.txPool = st.txPool.drop (spentFrames out.actions) := by
  unfold drainBackendEvents at h
  split_ifs at h
  · obtain ⟨⟨t,logs⟩,hrun,hret⟩ := (bind_ok_iff ..).mp h
    cases hret
    exact drainAll_txPool hrun
  · cases h
    rfl

end Aethon.Pipeline
