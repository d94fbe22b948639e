import Aethon.Container.TableUpdate

/-!
# The service registry

Services by hashed domain and by address and port. A service never changes once it is
registered, so the maps hold the configurations themselves instead of pointers to them.
-/

namespace Aethon.Tls

open Framework SingleThreadHashMap

def maxServices : Nat := 256

/-- A registered service: its name, its backend port, and whether it has an SSL context. -/
structure ServiceConfig where
  identifier : List UInt8 := []
  backendPort : BitVec 16 := 0
  hasSslCtx : Bool := false
  deriving DecidableEq, Repr

/-- `SingleThreadDefaultHash`. -/
def defaultHash (key : BitVec 64) : Nat :=
  let x := key ^^^ (key >>> 30)
  let x := x * 0xbf58476d1ce4e5b9#64
  let x := x ^^^ (x >>> 27)
  let x := x * 0x94d049bb133111eb#64
  let x := x ^^^ (x >>> 31)
  x.toNat

/-- A service map; its sentinel key is 0. -/
structure ServiceMap where
  table : SingleThreadHashMap (BitVec 64) ServiceConfig
  sentinel : table.emptyKey = 0

namespace ServiceMap

def new : ServiceMap := ⟨.new 0 defaultHash {} 9,rfl⟩

def insert (m : ServiceMap) (key : BitVec 64) (svc : ServiceConfig) : Checked ServiceMap :=
  match h : m.table.emplace key svc with
  | .error fault => .error fault
  | .ok (_,table) => .ok ⟨table,(emplace_emptyKey h).trans m.sentinel⟩

def find (m : ServiceMap) (key : BitVec 64) : Checked (Option ServiceConfig) := m.table.find key

theorem find_ok (m : ServiceMap) {key : BitVec 64} (h : key ≠ 0) : ∃ r, m.find key = .ok r :=
  m.table.find_ok key (by rwa [m.sentinel])

theorem insert_ok (m : ServiceMap) {key : BitVec 64} (svc : ServiceConfig) (h : key ≠ 0) :
    ∃ m', m.insert key svc = .ok m' := by
  obtain ⟨b,table,htable⟩ := m.table.emplace_ok key svc (by rwa [m.sentinel])
  unfold insert
  split
  · rename_i fault hfault
    rw [htable] at hfault
    cases hfault
  · exact ⟨_,rfl⟩

/-- Every service in the map satisfies `P`. -/
def All (P : ServiceConfig → Prop) (m : ServiceMap) : Prop :=
  ∀ i, (m.table.cells i).key ≠ 0 → P (m.table.cells i).val

section All

variable {P : ServiceConfig → Prop} {m m' : ServiceMap} {key : BitVec 64} {svc : ServiceConfig}

theorem All.new : ServiceMap.new.All P := fun _ h => absurd rfl h

theorem All.insert (h : m.All P) (hsvc : P svc) (hrun : m.insert key svc = .ok m') : m'.All P := by
  have hupdate : ∀ idx k, ∀ i, (Function.update m.table.cells idx ⟨k,svc⟩ i).key ≠ 0 →
      P (Function.update m.table.cells idx ⟨k,svc⟩ i).val := by
    intro idx k i hi
    by_cases hidx : i = idx
    · subst hidx
      simpa using hsvc
    · rw [Function.update_of_ne hidx] at hi ⊢
      exact h i hi
  unfold ServiceMap.insert at hrun
  split at hrun
  · cases hrun
  · rename_i b table htable
    cases hrun
    unfold emplace at htable
    obtain ⟨_,_,hrest⟩ := (bind_ok_iff ..).mp htable
    split at hrest
    · cases hrest
      exact h
    · split_ifs at hrest
      · cases hrest
        exact hupdate _ _
      · cases hrest
        exact hupdate _ _

theorem All.find (h : m.All P) (hfind : m.find key = .ok (some svc)) : P svc := by
  have hne := ne_emptyKey_of_find hfind
  obtain ⟨_,_,hret⟩ := (bind_ok_iff ..).mp hfind
  obtain ⟨idx,hidx,rfl⟩ := Option.map_eq_some_iff.mp (Except.ok.inj hret)
  obtain ⟨d,_,rfl,hkey,_⟩ := (probe_eq_some ..).mp hidx
  refine h _ ?_
  rw [hkey,← m.sentinel]
  exact hne

end All

end ServiceMap

/-- A byte as a signed `char`, widened to 64 bits. -/
def charToU64 (b : UInt8) : BitVec 64 := b.toBitVec.signExtend 64

def lowerChar (b : UInt8) : UInt8 := if 0x41 ≤ b ∧ b ≤ 0x5a then b ||| 0x20 else b

def hashDomain (domain : List UInt8) : BitVec 64 :=
  let hash := domain.foldl (fun hash c => (hash ^^^ charToU64 (lowerChar c)) * 1099511628211#64)
    14695981039346656037#64
  if hash = 0 then 1 else hash

def makeIpPortKey (ip : BitVec 32) (port : BitVec 16) : BitVec 64 :=
  let key := (ip.setWidth 64 <<< 16) ||| port.setWidth 64
  if key = 0 then 1 else key

theorem hashDomain_ne_zero (domain : List UInt8) : hashDomain domain ≠ 0 := by
  unfold hashDomain
  dsimp only
  split_ifs with h
  · decide
  · exact h

theorem makeIpPortKey_ne_zero (ip : BitVec 32) (port : BitVec 16) : makeIpPortKey ip port ≠ 0 := by
  unfold makeIpPortKey
  dsimp only
  split_ifs with h
  · decide
  · exact h

structure ServiceRegistry where
  serviceCount : Nat
  domainMap : ServiceMap
  ipPortMap : ServiceMap

namespace ServiceRegistry

def new : ServiceRegistry := ⟨0,.new,.new⟩

/-- `register_domain`, once the certificate has been loaded. -/
def registerDomain (r : ServiceRegistry) (domain : List UInt8) (svc : ServiceConfig) :
    Checked (Bool × ServiceRegistry) := do
  if r.serviceCount ≥ maxServices then return (false,r)
  else
    let domainMap ← r.domainMap.insert (hashDomain domain) { svc with identifier := domain }
    return (true,{ r with serviceCount := r.serviceCount + 1, domainMap := domainMap })

/-- `register_ip_port`, once the address has been read, the certificate has been loaded and the
identifier has been put together from the arguments. -/
def registerIpPort (r : ServiceRegistry) (ip : BitVec 32) (port : BitVec 16)
    (svc : ServiceConfig) : Checked (Bool × ServiceRegistry) := do
  if r.serviceCount ≥ maxServices then return (false,r)
  else
    let ipPortMap ← r.ipPortMap.insert (makeIpPortKey ip port) svc
    return (true,{ r with serviceCount := r.serviceCount + 1, ipPortMap := ipPortMap })

def findByIpPort (r : ServiceRegistry) (ip : BitVec 32) (port : BitVec 16) :
    Checked (Option ServiceConfig) := r.ipPortMap.find (makeIpPortKey ip port)

/-- The loop of `find_by_domain` over the parents of a name. -/
def findParent (m : ServiceMap) : List UInt8 → Checked (Option ServiceConfig)
  | [] => .ok none
  | c :: parent =>
      if c = 0x2e then
        if 0x2e ∈ parent then do
          match ← m.find (hashDomain parent) with
          | some svc => return some svc
          | none => findParent m parent
        else .ok none
      else findParent m parent

def findByDomain (r : ServiceRegistry) (domain : List UInt8) : Checked (Option ServiceConfig) :=
  if domain = [] ∨ domain.length > 255 then .ok none
  else do
    match ← r.domainMap.find (hashDomain domain) with
    | some svc => return some svc
    | none => findParent r.domainMap domain

theorem findByIpPort_ok (r : ServiceRegistry) (ip : BitVec 32) (port : BitVec 16) :
    ∃ svc, r.findByIpPort ip port = .ok svc :=
  r.ipPortMap.find_ok (makeIpPortKey_ne_zero ip port)

theorem findParent_ok (m : ServiceMap) (name : List UInt8) : ∃ svc, findParent m name = .ok svc := by
  induction name with
  | nil => exact ⟨none,rfl⟩
  | cons c parent ih =>
    unfold findParent
    split_ifs
    · obtain ⟨r,hr⟩ := m.find_ok (hashDomain_ne_zero parent)
      rw [hr]
      cases r with
      | some svc => exact ⟨some svc,rfl⟩
      | none => exact ih
    · exact ⟨none,rfl⟩
    · exact ih

theorem findByDomain_ok (r : ServiceRegistry) (domain : List UInt8) :
    ∃ svc, r.findByDomain domain = .ok svc := by
  unfold findByDomain
  split_ifs
  · exact ⟨none,rfl⟩
  · obtain ⟨found,hfound⟩ := r.domainMap.find_ok (hashDomain_ne_zero domain)
    rw [hfound]
    cases found with
    | some svc => exact ⟨some svc,rfl⟩
    | none => exact findParent_ok r.domainMap domain

theorem registerDomain_ok (r : ServiceRegistry) (domain : List UInt8) (svc : ServiceConfig) :
    ∃ b r', r.registerDomain domain svc = .ok (b,r') := by
  unfold registerDomain
  split_ifs
  · exact ⟨_,_,rfl⟩
  · obtain ⟨m,hm⟩ := r.domainMap.insert_ok { svc with identifier := domain }
      (hashDomain_ne_zero domain)
    rw [hm]
    exact ⟨_,_,rfl⟩

theorem registerIpPort_ok (r : ServiceRegistry) (ip : BitVec 32) (port : BitVec 16)
    (svc : ServiceConfig) : ∃ b r', r.registerIpPort ip port svc = .ok (b,r') := by
  unfold registerIpPort
  split_ifs
  · exact ⟨_,_,rfl⟩
  · obtain ⟨m,hm⟩ := r.ipPortMap.insert_ok svc (makeIpPortKey_ne_zero ip port)
    rw [hm]
    exact ⟨_,_,rfl⟩

/-- A registry into which only services that satisfy `P` have been registered. -/
inductive Loaded (P : ServiceConfig → Prop) : ServiceRegistry → Prop where
  | new : Loaded P .new
  | domain {r r' : ServiceRegistry} {domain : List UInt8} {svc : ServiceConfig} {b : Bool}
      (h : Loaded P r) (hsvc : P { svc with identifier := domain })
      (hrun : r.registerDomain domain svc = .ok (b,r')) : Loaded P r'
  | ipPort {r r' : ServiceRegistry} {ip : BitVec 32} {port : BitVec 16} {svc : ServiceConfig}
      {b : Bool} (h : Loaded P r) (hsvc : P svc)
      (hrun : r.registerIpPort ip port svc = .ok (b,r')) : Loaded P r'

namespace Loaded

variable {P : ServiceConfig → Prop} {r : ServiceRegistry} {svc : ServiceConfig}

theorem all (h : Loaded P r) : r.domainMap.All P ∧ r.ipPortMap.All P := by
  induction h with
  | new => exact ⟨ServiceMap.All.new,ServiceMap.All.new⟩
  | domain _ hsvc hrun ih =>
    unfold registerDomain at hrun
    split_ifs at hrun
    · cases hrun
      exact ih
    · obtain ⟨m,hm,hret⟩ := (bind_ok_iff ..).mp hrun
      cases hret
      exact ⟨ih.1.insert hsvc hm,ih.2⟩
  | ipPort _ hsvc hrun ih =>
    unfold registerIpPort at hrun
    split_ifs at hrun
    · cases hrun
      exact ih
    · obtain ⟨m,hm,hret⟩ := (bind_ok_iff ..).mp hrun
      cases hret
      exact ⟨ih.1,ih.2.insert hsvc hm⟩

theorem findByIpPort (h : Loaded P r) {ip : BitVec 32} {port : BitVec 16}
    (hfind : r.findByIpPort ip port = .ok (some svc)) : P svc := h.all.2.find hfind

theorem findParent {m : ServiceMap} (h : m.All P) {name : List UInt8}
    (hfind : findParent m name = .ok (some svc)) : P svc := by
  induction name with
  | nil => cases hfind
  | cons c parent ih =>
    unfold ServiceRegistry.findParent at hfind
    split_ifs at hfind
    · obtain ⟨found,hfound,hrest⟩ := (bind_ok_iff ..).mp hfind
      cases found with
      | some svc' =>
        cases hrest
        exact h.find hfound
      | none => exact ih hrest
    · cases hfind
    · exact ih hfind

theorem findByDomain (h : Loaded P r) {domain : List UInt8}
    (hfind : r.findByDomain domain = .ok (some svc)) : P svc := by
  unfold ServiceRegistry.findByDomain at hfind
  split_ifs at hfind
  · cases hfind
  · obtain ⟨found,hfound,hrest⟩ := (bind_ok_iff ..).mp hfind
    cases found with
    | some svc' =>
      cases hrest
      exact h.all.1.find hfound
    | none => exact findParent h.all.1 hrest

end Loaded

end ServiceRegistry

end Aethon.Tls
