import Aethon.Pipeline.Guarded
import Aethon.Pipeline.Offers

/-!
# Windows that are honoured

The client of a session without TLS may send up to the largest edge that it was offered. The
window counts the bytes in the backend buffer only, so it promises too much while a part of a
hello is held, and when a SYN on the open session is acknowledged at another number. Otherwise
`forward_to_backend` has room for whatever the client sends.
-/

namespace Aethon.Pipeline

open Framework

namespace Conn

/-- A new connection cannot take the bytes. -/
def reconnectLacksRoom (c : Conn) (io : BackendIo) (data : List UInt8) : Bool :=
  ((c.kernel.closeIfOpen c.session.backendFd).socket io.socket).isSome &&
    data.length > maxBackendBuf

/-- The open connection cannot take the bytes. -/
def reuseLacksRoom (c : Conn) (io : BackendIo) (data : List UInt8) : Bool :=
  if c.session.backendTxBuf ≠ [] then c.session.backendTxBuf.length + data.length > maxBackendBuf
  else match io.send with
    | .failed => false
    | .again => data.length > maxBackendBuf
    | .accepted n => data.length - n > maxBackendBuf

/-- `forward_to_backend` returns false because the backend buffer has no room. -/
def lacksRoom (c : Conn) (io : BackendIo) (data : List UInt8) (targetPort : BitVec 16) : Bool :=
  if data.length = 0 ∨ targetPort = 0 then false
  else match c.session.backendFd with
    | none => c.reconnectLacksRoom io data
    | some _ =>
        if c.session.backendPort ≠ targetPort then c.reconnectLacksRoom io data
        else c.reuseLacksRoom io data

end Conn

section Room

variable {c c' : Conn} {io : BackendIo} {data : List UInt8} {port : BitVec 16}

theorem reconnect_false (h : (c.reconnect io data port).1 = false) :
    c.reconnectLacksRoom io data = true ∨
      (c.kernel.closeIfOpen c.session.backendFd).socket io.socket = none := by
  unfold Conn.reconnect at h
  unfold Conn.reconnectLacksRoom
  dsimp only at h
  split at h
  · rename_i hnone
    exact Or.inr hnone
  · rename_i fd hfd
    split_ifs at h with hroom
    simp [hfd,hroom]

theorem reuse_false {fd : Nat} (h : (c.reuse io fd data).1 = false) :
    c.reuseLacksRoom io data = true ∨ io.send = .failed := by
  unfold Conn.reuse at h
  unfold Conn.reuseLacksRoom
  split at h
  · rename_i hbuf
    rw [if_pos hbuf]
    split at h
    · rename_i hroom
      exact Or.inl (decide_eq_true hroom)
    · cases h
  · rename_i hbuf
    rw [if_neg hbuf]
    split at h
    · rename_i hfailed
      exact Or.inr hfailed
    · rename_i hagain
      rw [hagain]
      split at h
      · rename_i hroom
        exact Or.inl (decide_eq_true hroom)
      · cases h
    · rename_i n hsent
      rw [hsent]
      dsimp only at h
      split at h
      · split at h
        · rename_i hroom
          exact Or.inl (decide_eq_true hroom)
        · cases h
      · cases h

/-- The ways in which `forward_to_backend` returns false. -/
theorem forwardToBackend_false (h : (c.forwardToBackend io data port).1 = false) :
    (data.length = 0 ∨ port = 0) ∨ c.lacksRoom io data port = true ∨ io.send = .failed ∨
      (c.kernel.closeIfOpen c.session.backendFd).socket io.socket = none := by
  unfold Conn.forwardToBackend at h
  split at h
  · rename_i hempty
    exact Or.inl hempty
  · rename_i hdata
    right
    split at h
    · rename_i hfd
      rcases reconnect_false h with hroom | hnone
      · exact Or.inl (by simpa only [Conn.lacksRoom,if_neg hdata,hfd] using hroom)
      · exact Or.inr (Or.inr hnone)
    · rename_i fd hfd
      split at h
      · rename_i hport
        rcases reconnect_false h with hroom | hnone
        · exact Or.inl (by simpa only [Conn.lacksRoom,if_neg hdata,hfd,if_pos hport] using hroom)
        · exact Or.inr (Or.inr hnone)
      · rename_i hport
        rcases reuse_false h with hroom | hfailed
        · exact Or.inl (by simpa only [Conn.lacksRoom,if_neg hdata,hfd,if_neg hport] using hroom)
        · exact Or.inr (Or.inl hfailed)

/-- There is room when the buffer can take the bytes behind those that wait in it. -/
theorem not_lacksRoom (h : c.session.backendTxBuf.length + data.length ≤ maxBackendBuf) :
    c.lacksRoom io data port = false := by
  have hreconnect : c.reconnectLacksRoom io data = false := by
    simp only [Conn.reconnectLacksRoom,Bool.and_eq_false_iff,decide_eq_false_iff_not]
    exact Or.inr (by omega)
  have hreuse : c.reuseLacksRoom io data = false := by
    unfold Conn.reuseLacksRoom
    split
    · simpa using h
    · split
      · rfl
      · simp only [decide_eq_false_iff_not]
        omega
      · simp only [decide_eq_false_iff_not]
        omega
  unfold Conn.lacksRoom
  split
  · rfl
  · split
    · exact hreconnect
    · split
      · exact hreconnect
      · exact hreuse

theorem lacksRoom_full (hne : data ≠ []) (hport : port ≠ 0) (hconnected : c.session.backendFd ≠ none)
    (hrouted : c.session.backendPort = port) (hwaits : c.session.backendTxBuf ≠ [])
    (hfull : maxBackendBuf < c.session.backendTxBuf.length + data.length) :
    c.lacksRoom io data port = true := by
  obtain ⟨fd,hfd⟩ := Option.ne_none_iff_exists'.mp hconnected
  have hdata : ¬ (data.length = 0 ∨ port = 0) :=
    not_or.mpr ⟨(List.length_pos_of_ne_nil hne).ne',hport⟩
  simp only [Conn.lacksRoom,if_neg hdata,hfd,hrouted,ne_eq,not_true_eq_false,if_false,
    Conn.reuseLacksRoom,hwaits,not_false_eq_true,if_true]
  exact decide_eq_true hfull

theorem flushBackendTx_length (c : Conn) (io : BackendIo) :
    (c.flushBackendTx io).session.backendTxBuf.length ≤ c.session.backendTxBuf.length := by
  unfold Conn.flushBackendTx
  split
  · exact le_rfl
  · split_ifs
    · exact le_rfl
    · split
      · split_ifs
        · simp [Conn.setTxBuf]
        · exact le_rfl
      · exact le_rfl
      · exact le_rfl

theorem reconnect_length (h : c.reconnect io data port = (true,c')) :
    c'.session.backendTxBuf.length = data.length := by
  unfold Conn.reconnect at h
  dsimp only at h
  split at h
  · cases h
  · split at h
    · cases h
    · cases h
      rfl

theorem reuse_length {fd : Nat} (h : c.reuse io fd data = (true,c')) :
    c'.session.backendTxBuf.length ≤ c.session.backendTxBuf.length + data.length := by
  unfold Conn.reuse at h
  split at h
  · split at h
    · cases h
    · cases h
      refine (flushBackendTx_length _ io).trans ?_
      simp [Conn.setTxBuf]
  · split at h
    · cases h
    · split at h
      · cases h
      · cases h
        exact Nat.le_add_left _ _
    · dsimp only at h
      split at h
      · split at h
        · cases h
        · cases h
          simp only [Conn.setTxBuf,List.length_drop]
          omega
      · cases h
        exact Nat.le_add_right _ _

/-- A forward adds at most the bytes it was given to the buffer. -/
theorem forwardToBackend_length (h : c.forwardToBackend io data port = (true,c')) :
    c'.session.backendTxBuf.length ≤ c.session.backendTxBuf.length + data.length := by
  unfold Conn.forwardToBackend at h
  split at h
  · cases h
  · split at h
    · exact (reconnect_length h).le.trans (Nat.le_add_left _ _)
    · split at h
      · exact (reconnect_length h).le.trans (Nat.le_add_left _ _)
      · exact reuse_length h

end Room

/-- The packet leaves room for what the client may send: it does not pass over marks in the ring,
a segment that opens with the first byte of a TLS record finds room for a whole hello beside a
whole window, and a SYN is acknowledged at a number for which there is room. -/
structure LeavesRoom (s : TcpStreamSession) (pkt : TcpPacket) : Prop where
  marks : s.takesData pkt = true → s.fastPath pkt.seq pkt.payload = true →
    s.marksPassed pkt.seq pkt.payload = false
  hello : s.takesData pkt = true → (s.trim pkt.seq pkt.payload).1 = s.rcvNxt →
    (s.trim pkt.seq pkt.payload).2.head? = some 0x16 →
    s.backendTxBuf.length + maxClientHello + synAckWindow ≤ maxBackendBuf
  syn : pkt.has thSyn = true →
    (s.backendTxBuf.length + s.clientHelloBuf.length : Int) +
      ((pkt.seq + 1 - s.rcvNxt).toInt + synAckWindow) ≤ maxBackendBuf

instance (s : TcpStreamSession) (pkt : TcpPacket) : Decidable (LeavesRoom s pkt) :=
  decidable_of_iff (_ ∧ _ ∧ _) ⟨fun h => ⟨h.1,h.2.1,h.2.2⟩,fun h => ⟨h.marks,h.hello,h.syn⟩⟩

section Takes

variable {s₀ s : TcpStreamSession} {f : TcpFrame} {p : Nat} {res : TcpAssemblyResult} {o : Offer}

/-- The session and the bytes that come out of it, for a packet within the window. -/
structure Received (s : TcpStreamSession) (res : TcpAssemblyResult) (o : Offer) : Prop where
  fits : s.state ≠ .closing → Fits s res.payload.length (o.deliver res.payload.length)
  room : 0 < res.payload.length →
    s.backendTxBuf.length + s.clientHelloBuf.length + res.payload.length ≤ maxBackendBuf
  ready : 0 < res.payload.length → res.isReady = true
  held : s.clientHelloBuf ≠ [] ∨ startsHello res.payload = true → 0 < res.payload.length →
    s.backendTxBuf.length + maxClientHello + synAckWindow ≤ maxBackendBuf

theorem startsHello_head {payload : List UInt8} (h : startsHello payload = true) :
    payload.head? = some 0x16 := by
  simp only [startsHello,Bool.and_eq_true,decide_eq_true_eq] at h
  cases payload with
  | nil => simp at h
  | cons b rest =>
    rw [List.head?_cons]
    exact congrArg some (by simpa using h.1.2)

theorem Fits.takes (h : Fits s₀ 0 o)
    (hsends : f.packet.has thSyn = false → 0 < f.packet.payload.length →
      o.position f.packet.seq + f.packet.payload.length ≤ o.edge)
    (hroom : LeavesRoom s₀ f.packet) (htakes : Takes s₀ f p s res) : Received s res o := by
  have houter := htakes.outer
  obtain ⟨r,hon,rfl⟩ := htakes
  have hend : s₀.takesData f.packet = true → 0 < f.packet.payload.length →
      s₀.endOffset f.packet.seq f.packet.payload ≤ o.ahead := by
    intro hdata hpos
    have hsyn : f.packet.has thSyn = false := by
      simp only [TcpStreamSession.takesData,Bool.and_eq_true,Bool.not_eq_true'] at hdata
      exact hdata.1.2
    have hwithin := hsends hsyn hpos
    rw [TcpStreamSession.endOffset,h.next]
    simp only [Offer.position,Offer.ahead] at hwithin ⊢
    omega
  obtain ⟨hmarks,hfront⟩ := TcpStreamSession.onPacket_below h.marks hend hroom.marks hon
  have hall : TcpStreamSession.handedOut r = r.payload := by
    cases TcpStreamSession.onPacket_progress hon with
    | still _ _ hready hpayload => simp [TcpStreamSession.handedOut,hready,hpayload]
    | fed _ _ _ hall => exact hall
    | finished _ _ _ hall => exact hall
  have hready : 0 < r.payload.length → r.isReady = true := by
    intro hpos
    by_contra hno
    rw [← hall,TcpStreamSession.handedOut,if_neg hno] at hpos
    cases hpos
  have hroom₀ := h.room
  rw [← houter.backendTxBuf,← houter.clientHelloBuf] at hroom₀
  change Received s (TcpAssemblerEngine.portsOf f.packet r (some p)) o
  refine ⟨?_,?_,hready,?_⟩
  · intro hopen
    change Fits s r.payload.length (o.deliver r.payload.length)
    refine ⟨?_,by rw [houter.backendTxBuf]; exact h.queue,?_,
      by rw [houter.clientHelloBuf]; exact h.hello,?_,?_⟩
    · rw [Offer.next_deliver,← h.next]
      cases TcpStreamSession.onPacket_progress hon with
      | still _ hnxt _ hpayload =>
        rw [hnxt,hpayload]
        exact (BitVec.add_zero _).symm
      | fed _ _ hnxt => rw [hnxt,hall]
      | finished _ hstate => exact absurd hstate hopen
    · rw [houter.backendTxBuf,houter.clientHelloBuf]
      exact h.held
    · rw [Offer.ahead_deliver]
      omega
    · rw [Offer.ahead_deliver]
      exact hmarks hopen
  · intro hpos
    have hle := (hfront hpos).1
    change s.backendTxBuf.length + s.clientHelloBuf.length + r.payload.length ≤ maxBackendBuf
    omega
  · intro hhold hpos
    rw [houter.clientHelloBuf] at hhold
    rw [houter.backendTxBuf]
    obtain ⟨_,hdata,hplace,hhead⟩ := hfront hpos
    rcases hhold with hne | hstart
    · exact h.held hne
    · exact hroom.hello hdata hplace (hhead.symm.trans (startsHello_head hstart))

end Takes

section Handling

variable {cfg : Config} {f : TcpFrame} {c c' : Conn} {verdict : Verdict} {o : Offer}

/-- The held and the delivered bytes leave for the backend buffer at most. -/
theorem Fits.release {s s' : TcpStreamSession} {n : Nat} (h : Fits s n o)
    (hnxt : s'.rcvNxt = s.rcvNxt) (hring : s'.ring = s.ring)
    (hbuf : s'.backendTxBuf.length ≤ s.backendTxBuf.length + s.clientHelloBuf.length + n)
    (hqueue : s'.backendTxBuf.length ≤ maxBackendBuf) (hhello : s'.clientHelloBuf = []) :
    Fits s' 0 o := by
  refine ⟨hnxt.trans h.next,hqueue,fun hne => absurd hhello hne,?_,?_,?_⟩
  · rw [hhello]
    exact Nat.zero_le _
  · have := h.room
    rw [hhello,List.length_nil]
    push_cast
    omega
  · intro i hi hbit
    apply h.marks i hi
    unfold TcpStreamSession.bit at hbit ⊢
    rwa [hnxt,hring] at hbit

/-- Bytes that are scanned and do not end the session are dropped or forwarded. -/
theorem inspectCase_fits {s : TcpStreamSession} {n : Nat} {hello : List UInt8}
    (hfits : Fits s n o) (hnxt : c.session.rcvNxt = s.rcvNxt) (hring : c.session.ring = s.ring)
    (hbuf : c.session.backendTxBuf = s.backendTxBuf)
    (hlen : hello.length = s.clientHelloBuf.length + n)
    (hroom : s.backendTxBuf.length + s.clientHelloBuf.length + n ≤ maxBackendBuf)
    (h : InspectCase cfg f c hello c' verdict) (hopen : verdict ≠ .reset) :
    ∃ acts, c'.log = c.log ++ acts ∧
      ∃ o', acts.foldl Offer.note (some o) = some o' ∧ Fits c'.session 0 o' := by
  cases h with
  | attack => exact absurd rfl hopen
  | refused => exact absurd rfl hopen
  | unrouted =>
    refine ⟨[.scan hello f.attack,.target 0],by simp [Conn.scanBytes,Conn.emit,Conn.clearHello],
      o,rfl,hfits.release hnxt hring ?_ ?_ rfl⟩
    · change c.session.backendTxBuf.length ≤ _
      rw [hbuf]
      omega
    · change c.session.backendTxBuf.length ≤ _
      rw [hbuf]
      omega
  | forwarded port e _ he =>
    have hlength := forwardToBackend_length he
    change e.session.backendTxBuf.length ≤ c.session.backendTxBuf.length + _ at hlength
    rw [hbuf,hlen] at hlength
    have honly := BackendOnly.forwardToBackend
      (((c.scanBytes f hello).emit (.target port)).emit (.forward port hello)) f.backend hello port
    rw [he] at honly
    change BackendOnly _ e at honly
    obtain ⟨_,_,_,_,writes,hframe,hwrites⟩ := honly
    have hcleared : Fits e.clearHello.session 0 o := by
      refine hfits.release ?_ ?_ (hlength.trans (by omega)) (hlength.trans (by omega)) rfl
      · rw [hframe]
        exact hnxt
      · rw [hframe]
        exact hring
    have hlog : e.clearHello.log =
        c.log ++ ([.scan hello f.attack,.target port,.forward port hello] ++ writes) := by
      rw [hframe]
      simp [Conn.clearHello,Conn.scanBytes,Conn.emit]
    have hsilent : ∀ a ∈ [.scan hello f.attack,.target port,.forward port hello] ++ writes,
        a.isSilent = true := by
      intro a ha
      rcases List.mem_append.mp ha with hhead | hwrite
      · simp only [List.mem_cons,List.not_mem_nil,or_false] at hhead
        rcases hhead with rfl | rfl | rfl <;> rfl
      · obtain ⟨_,_,rfl⟩ := Action.eq_write (hwrites a hwrite)
        rfl
    obtain ⟨acks,hacks,hack⟩ := ((Honours.rule.armEpoll e.clearHello cfg.epfd
      ((c.scanBytes f hello).emit (.target port)).session.backendFd).trans (Honours.emitAck _)).log
    refine ⟨_,hacks.trans (by rw [hlog,List.append_assoc]),?_⟩
    rw [List.foldl_append,foldl_note_silent _ hsilent]
    exact hack o hcleared

/-- Delivered bytes that are not fed to TLS and do not end the session leave room. -/
theorem readyCase_fits {payload : List UInt8} (hidle : c.session.tlsStatus = .idle)
    (hfits : Fits c.session payload.length o)
    (hroom : c.session.backendTxBuf.length + c.session.clientHelloBuf.length + payload.length ≤
      maxBackendBuf)
    (hheld : c.session.clientHelloBuf ≠ [] ∨ startsHello payload = true →
      c.session.backendTxBuf.length + maxClientHello + synAckWindow ≤ maxBackendBuf)
    (h : ReadyCase cfg f c payload c' verdict) (hopen : verdict ≠ .reset) :
    ∃ acts, c'.log = c.log ++ acts ∧ ((∃ hello, .feed hello ∈ acts) ∨
      ∃ o', acts.foldl Offer.note (some o) = some o' ∧ Fits c'.session 0 o') := by
  cases h with
  | oversize => exact absurd rfl hopen
  | blocked => exact absurd rfl hopen
  | fed _ _ hello acts hlog hmem => exact ⟨acts,hlog,Or.inl ⟨hello,hmem⟩⟩
  | held t hhold =>
    obtain ⟨hstart,hsize⟩ := holdHello_wait_bound hhold
    have hwait := holdHello_wait hhold
    have ht : Fits t 0 o := by
      rw [hwait]
      refine ⟨hfits.next,hfits.queue,fun _ => hheld hstart,?_,?_,hfits.marks⟩
      · rwa [List.length_append]
      · have := hfits.room
        rw [List.length_append]
        push_cast at this ⊢
        omega
    obtain ⟨acts,hlog,hack⟩ := (Honours.emitAck { c with session := t }).log
    exact ⟨acts,hlog,Or.inr (hack o ht)⟩
  | inspected d hello _ _ hplain hcase =>
    obtain ⟨s,port,_,_,acts,hpass,hd,hacts⟩ := plainHello_frame hplain
    have hhello := holdHello_pass hidle hpass
    have hsilent : ∀ a ∈ acts, a.isSilent = true := by
      intro a ha
      rw [hacts a ha]
      rfl
    obtain ⟨acts',hlog,o',hnote,hend⟩ := inspectCase_fits hfits (by rw [hd]) (by rw [hd])
      (by rw [hd]) (by rw [hhello,List.length_append]) hroom hcase hopen
    refine ⟨acts ++ acts',by rw [hlog,hd,List.append_assoc],Or.inr ⟨o',?_,hend⟩⟩
    rw [List.foldl_append,foldl_note_silent _ hsilent,hnote]

/-- The handling of a packet within the window leaves room. -/
theorem handleResult_fits {res : TcpAssemblyResult} (hidle : c.session.tlsStatus = .idle)
    (hlog : c.log = []) (hopen : c.session.state ≠ .closing) (hreceived : Received c.session res o)
    (hsyn : res.isSyn = true → res.payload = [] ∧
      (c.session.backendTxBuf.length + c.session.clientHelloBuf.length : Int) +
        ((f.packet.seq + 1 - c.session.rcvNxt).toInt + synAckWindow) ≤ maxBackendBuf)
    (hack : res.needAck = true → res.payload = [])
    (h : handleResult cfg f c res = .ok (c',verdict)) (hreset : verdict ≠ .reset)
    (hplain : Plain c'.log) :
    ∃ o', c'.log.foldl Offer.note (some o) = some o' ∧ Fits c'.session 0 o' := by
  have hfits := hreceived.fits hopen
  have hnothing : res.payload = [] → c.noteDelivery res = c ∧ Fits c.session 0 o := by
    intro hnil
    rw [hnil] at hfits
    exact ⟨by simp [Conn.noteDelivery,hnil],hfits⟩
  unfold handleResult at h
  dsimp only at h
  split_ifs at h with hissyn hneed hready
  · obtain ⟨hnil,hroom⟩ := hsyn hissyn
    obtain ⟨hsame,hsession⟩ := hnothing hnil
    rw [hsame] at h
    cases h
    have hext : Fits c.session 0 (o.extend (f.packet.seq + 1) synAckWindow) :=
      hsession.extend (by simpa using hroom)
    exact ⟨_,by simp [Conn.emit,Conn.setMacs,hlog,Offer.note],hext.ease rfl rfl le_rfl rfl⟩
  · obtain ⟨hsame,hsession⟩ := hnothing (hack hneed)
    rw [hsame] at h
    cases h
    obtain ⟨acts,hacts,hnote⟩ := (Honours.emitAck c).log
    rw [hlog,List.nil_append] at hacts
    rw [hacts]
    exact hnote o hsession
  · have hnote : c.noteDelivery res = c.emit (.delivered res.payload) := if_pos hready
    rw [hnote] at h
    obtain ⟨acts,hacts,hcase⟩ := readyCase_fits (c := c.emit (.delivered res.payload)) hidle hfits
      (hreceived.room hready.2) (fun hhold => hreceived.held hhold hready.2)
      (handleReady_cases h) hreset
    rw [Conn.emit,hlog,List.nil_append] at hacts
    rcases hcase with ⟨hello,hmem⟩ | ⟨o',hfold,hend⟩
    · rw [hacts] at hplain
      exact absurd hmem hplain.not_fed
    · rw [hacts]
      exact ⟨o',hfold,hend⟩
  · cases h
    have hnil : res.payload = [] := by
      by_contra hne
      have hpos := List.length_pos_of_ne_nil hne
      exact hready ⟨hreceived.ready hpos,hpos⟩
    obtain ⟨hsame,hsession⟩ := hnothing hnil
    rw [hsame,hlog]
    exact ⟨o,rfl,hsession⟩

end Handling

/-- The guard on a packet of the session. -/
def windowGuard (s : TcpStreamSession) (acts : List Action) (f : TcpFrame) : Prop :=
  SendsWithin acts f.packet ∧ LeavesRoom s f.packet

/-- A session without TLS has room for what its client may send until its FIN. -/
def Honoured (s : TcpStreamSession) (acts : List Action) : Prop :=
  Plain acts → s.tlsStatus = .idle ∧
    (s.state ≠ .closing → ∃ o, offered acts = some o ∧ Fits s 0 o)

namespace Honoured

variable {cfg : Config} {f : TcpFrame} {p : Nat} {s₀ s : TcpStreamSession}
  {res : TcpAssemblyResult} {c : Conn} {verdict : Verdict} {acts : List Action}

/-- The session as a packet leaves it for its handling. -/
theorem takes (h : Honoured s₀ acts) (hguard : windowGuard s₀ acts f)
    (htakes : Takes s₀ f p s res) (hplain : Plain acts) (hopen : s₀.state ≠ .closing) :
    ∃ o, offered acts = some o ∧ Received s res o := by
  obtain ⟨o,ho,hfits⟩ := (h hplain).2 hopen
  exact ⟨o,ho,hfits.takes (fun hsyn hpos => hguard.1 hsyn hpos o ho) hguard.2 htakes⟩

/-- Only a session that takes data hands bytes out. -/
theorem takesData (htakes : Takes s₀ f p s res) (hpos : 0 < res.payload.length) :
    s₀.takesData f.packet = true := by
  obtain ⟨r,hon,rfl⟩ := htakes
  cases TcpStreamSession.onPacket_progress hon with
  | still _ _ _ hpayload =>
    change 0 < r.payload.length at hpos
    rw [hpayload] at hpos
    cases hpos
  | fed htakes => exact htakes
  | finished htakes => exact htakes

theorem not_closing (htakes : Takes s₀ f p s res) (hopen : s.state ≠ .closing) :
    s₀.state ≠ .closing := by
  obtain ⟨r,hon,_⟩ := htakes
  intro hclosing
  have hdata : s₀.takesData f.packet = false := by simp [TcpStreamSession.takesData,hclosing]
  cases TcpStreamSession.onPacket_progress hon with
  | still hstate => exact hopen (hstate.trans hclosing)
  | fed htakes =>
    rw [hdata] at htakes
    cases htakes
  | finished htakes =>
    rw [hdata] at htakes
    cases htakes

/-- A SYN on the open session moves nothing. -/
theorem synAck (hguard : LeavesRoom s₀ f.packet) (htakes : Takes s₀ f p s res)
    (hsyn : res.isSyn = true) : res.payload = [] ∧
      (s.backendTxBuf.length + s.clientHelloBuf.length : Int) +
        ((f.packet.seq + 1 - s.rcvNxt).toInt + synAckWindow) ≤ maxBackendBuf := by
  have houter := htakes.outer
  obtain ⟨hflag,_⟩ := htakes.isSyn hsyn
  obtain ⟨r,hon,rfl⟩ := htakes
  have hdata : s₀.takesData f.packet = false := by simp [TcpStreamSession.takesData,hflag]
  cases TcpStreamSession.onPacket_progress hon with
  | still _ hnxt _ hpayload =>
    rw [houter.backendTxBuf,houter.clientHelloBuf,hnxt]
    exact ⟨hpayload,hguard.syn hflag⟩
  | fed htakes =>
    rw [hdata] at htakes
    cases htakes
  | finished htakes =>
    rw [hdata] at htakes
    cases htakes

theorem needAck (htakes : Takes s₀ f p s res) (hneed : res.needAck = true) :
    res.payload = [] := by
  obtain ⟨r,hon,rfl⟩ := htakes
  have hover := s₀.onPacket_handsOver f.packet f.call.nowNs f.call.garbage
  rw [hon] at hover
  rcases hover with hnil | ⟨_,hno,_⟩
  · exact hnil
  · cases hno.symm.trans hneed

theorem handled (h : Honoured s₀ acts) (hguard : windowGuard s₀ acts f)
    (htakes : Takes s₀ f p s res) (hs : c.session = s) (hlog : c.log = [])
    {c' : Conn} (hrun : handleResult cfg f c res = .ok (c',verdict))
    (hopen : verdict.closes res = false) : Honoured c'.session (acts ++ c'.log) := by
  intro hplain
  obtain ⟨hidle₀,_⟩ := h hplain.left
  have hidle : c.session.tlsStatus = .idle := by
    rw [hs]
    exact htakes.outer.tlsStatus.trans hidle₀
  have hplain' : Plain c'.log := fun a ha => hplain a (List.mem_append_right _ ha)
  constructor
  · rcases handleResult_quiet hidle hrun with hquiet | ⟨new,hello,hnew,hmem⟩
    · exact hquiet.status.trans hidle
    · rw [hlog,List.nil_append] at hnew
      rw [hnew] at hplain
      exact absurd hmem hplain.not_fed
  · intro hstate
    have hinner := handleResult_inner hrun
    have hstate' : s.state ≠ .closing := by
      rw [← hs]
      exact fun hc => hstate ((congrArg (fun i => i.2.1) hinner).trans hc)
    obtain ⟨o,ho,hreceived⟩ := h.takes hguard htakes hplain.left (not_closing htakes hstate')
    rw [← hs] at hreceived hstate'
    have hreset : verdict ≠ .reset := by
      rintro rfl
      cases hopen
    rw [offered_append,ho]
    exact handleResult_fits hidle hlog hstate' hreceived
      (fun hsyn => by rw [hs]; exact synAck hguard.2 htakes hsyn) (needAck htakes) hrun hreset
      hplain'

end Honoured

theorem honoured_guarded (cfg : Config) (p : Nat) :
    Guarded cfg windowGuard p Honoured (fun _ => True) := by
  constructor
  case born =>
    intro w f c _ hrun
    cases hrun
    refine fun _ => ⟨rfl,fun _ => ⟨⟨f.packet.seq,0,synAckWindow⟩,rfl,?_⟩⟩
    refine ⟨(BitVec.add_zero _).symm,Nat.zero_le _,fun hne => absurd rfl hne,Nat.zero_le _,?_,?_⟩
    · change ((0 : Nat) + (0 : Nat) : Int) + (65535 - 0 - (0 : Nat)) ≤ maxBackendBuf
      decide
    · intro i _ hbit
      cases hbit
  case kept =>
    intro w s₀ s f res c verdict acts h _ hguard htakes hrun hopen
    exact h.handled hguard htakes (c := w.conn p s) rfl rfl hrun hopen
  case closed => exact fun _ _ _ _ _ _ _ _ _ _ _ _ _ _ => trivial
  case event =>
    intro w s fd ev c acts h hrun hplain
    obtain ⟨hidle,hoffer⟩ := h hplain.left
    have hinner := Conn.onBackendEvent_inner (w.conn p s) fd ev
    rw [hrun] at hinner
    have hhonours : Honours (w.conn p s) c := by
      have hbefore := Honours.rule.beforeHangUp (w.conn p s) fd ev
      rw [onBackendEvent_eq] at hrun
      split_ifs at hrun
      · cases hrun
      · cases hrun
        exact hbefore
    refine ⟨hhonours.status.trans hidle,?_⟩
    intro hstate
    have hstate' : s.state ≠ .closing :=
      fun hc => hstate ((congrArg (fun i => i.2.1) hinner).trans hc)
    obtain ⟨o,ho,hfits⟩ := hoffer hstate'
    obtain ⟨new,hlog,hnote⟩ := hhonours.log
    have hnew : c.log = new := hlog
    rw [offered_append,ho,hnew]
    exact hnote o hfits
  case hungUp => exact fun _ _ _ _ _ _ _ _ => trivial
  case freed => exact fun _ _ _ => trivial

end Aethon.Pipeline
