import Aethon.Container.MapRefinement
import Aethon.Tls.DomainBlocklist
import Aethon.Tls.ServiceRegistry

/-!
# Routing by name

The law of the service registry is about names: the service registered last under the name
itself, or under its longest registered parent. The code compares 64-bit hashes of names, and
its table gives up on a key after 64 cells. The two agree exactly when neither gets in the way.
-/

namespace Aethon.Tls

open Framework SingleThreadHashMap

/-- One call of `register_domain` with a certificate that loads. -/
structure Registration where
  name : List UInt8
  svc : ServiceConfig

namespace Registration

/-- The entry that the call leaves in the table of services. -/
def entry (reg : Registration) : ServiceConfig := { reg.svc with identifier := reg.name }

def op (reg : Registration) : MapOp (BitVec 64) ServiceConfig :=
  .emplace (hashDomain reg.name) reg.entry

end Registration

def register (r : ServiceRegistry) (reg : Registration) : Checked (ServiceRegistry × Bool) := do
  let (b,r) ← r.registerDomain reg.name reg.svc
  return (r,b)

/-- The entry registered last under a name that `same` accepts. -/
def latest (same : List UInt8 → Bool) (regs : List Registration) : Option ServiceConfig :=
  (regs.reverse.find? fun reg => same reg.name).map Registration.entry

/-- Equal up to the case of ASCII letters. -/
def sameName (a b : List UInt8) : Bool := a.map lowerChar = b.map lowerChar

def registered (regs : List Registration) (name : List UInt8) : Option ServiceConfig :=
  latest (sameName name) regs

def hashed (regs : List Registration) (hash : BitVec 64) : Option ServiceConfig :=
  latest (fun name => hashDomain name = hash) regs

/-- The names that a query may be served under. -/
def Candidate (query name : List UInt8) : Prop := name = query ∨ IsParent query name

/-- The law: the longest candidate that is registered decides. -/
structure Picks (regs : List Registration) (query name : List UInt8) (svc : ServiceConfig) :
    Prop where
  candidate : Candidate query name
  entry : registered regs name = some svc
  longest : ∀ name', Candidate query name' → name.length < name'.length →
    registered regs name' = none

/-- The result of a lookup follows the law, and its service carries a name of the query. -/
structure RoutesTo (regs : List Registration) (query : List UInt8)
    (res : Option ServiceConfig) : Prop where
  law : ∀ svc, res = some svc ↔ ∃ name, Picks regs query name svc
  own : ∀ svc, res = some svc → ∃ name, Candidate query name ∧ sameName name svc.identifier = true

/-- The hash is a key of the table, fewer than 64 cells after its home slot. -/
def Near (m : ServiceMap) (hash : BitVec 64) : Prop :=
  ∃ p < m.table.capacity, (m.table.cells p).key = hash ∧
    ringDist m.table.capacity (m.table.home hash) p < 64

/-- Hashes stand for names as far as the query is concerned. -/
structure NoMixUp (regs : List Registration) (m : ServiceMap) (query : List UInt8) : Prop where
  picked : ∀ name svc, Picks regs query name svc →
    Near m (hashDomain name) ∧ hashed regs (hashDomain name) = some svc
  first : ∀ name, Candidate query name → Near m (hashDomain name) →
    (∀ name', Candidate query name' → name.length < name'.length → ¬ Near m (hashDomain name')) →
    ∃ name' svc, Picks regs query name' svc ∧ hashDomain name' = hashDomain name

section Latest

variable {same : List UInt8 → Bool} {regs : List Registration} {svc : ServiceConfig}

theorem latest_concat (reg : Registration) :
    latest same (regs ++ [reg]) = if same reg.name then some reg.entry else latest same regs := by
  simp only [latest,List.reverse_append,List.reverse_singleton,List.singleton_append,
    List.find?_cons]
  cases same reg.name <;> simp

theorem latest_same (h : latest same regs = some svc) : same svc.identifier = true := by
  obtain ⟨reg,hreg,rfl⟩ := Option.map_eq_some_iff.mp h
  exact List.find?_some (p := fun reg : Registration => same reg.name) hreg

theorem hashed_concat (reg : Registration) (hash : BitVec 64) :
    hashed (regs ++ [reg]) hash =
      if hashDomain reg.name = hash then some reg.entry else hashed regs hash := by
  simp [hashed,latest_concat]

/-- The table of hashes replays what was registered last under each hash. -/
theorem replay_ops (regs : List Registration) (hash : BitVec 64) :
    replay (regs.map Registration.op) hash = hashed regs hash := by
  induction regs using List.reverseRecOn with
  | nil => rfl
  | append_singleton regs reg ih =>
    rw [hashed_concat,← ih]
    simp only [replay,List.map_append,List.map_singleton,List.foldl_append,List.foldl_cons,
      List.foldl_nil,Registration.op,Function.update_apply,eq_comm]

end Latest

/-- Names that differ in case at most have one hash. -/
theorem hashDomain_sameName {a b : List UInt8} (h : sameName a b = true) :
    hashDomain a = hashDomain b := by
  have hfold : ∀ (l : List UInt8) (start : BitVec 64),
      l.foldl (fun hash c => (hash ^^^ charToU64 (lowerChar c)) * 1099511628211#64) start =
        (l.map lowerChar).foldl (fun hash c => (hash ^^^ charToU64 c) * 1099511628211#64) start := by
    intro l start
    rw [List.foldl_map]
  unfold hashDomain
  rw [hfold,hfold,of_decide_eq_true h]

section Walk

/-- The parents of a name, in the order in which `find_by_domain` meets them. -/
def parentsOf : List UInt8 → List (List UInt8)
  | [] => []
  | c :: rest =>
      if c = dot then if dot ∈ rest then rest :: parentsOf rest else [] else parentsOf rest

theorem mem_parentsOf {query name : List UInt8} : name ∈ parentsOf query ↔ IsParent query name := by
  induction query with
  | nil => simp [parentsOf,IsParent]
  | cons c rest ih =>
    rw [parentsOf,isParent_cons]
    split_ifs with hc hdot
    · rw [List.mem_cons,ih]
      refine or_congr_left ⟨fun h => ⟨hc,h.symm,h ▸ hdot⟩,fun h => h.2.1.symm⟩
    · refine iff_of_false (by simp) ?_
      rintro (⟨_,rfl,hmem⟩ | hparent)
      · exact hdot hmem
      · exact not_isParent_of_not_mem hdot hparent
    · simp [ih,hc]

theorem IsParent.length_lt {query name : List UInt8} (h : IsParent query name) :
    name.length < query.length := by
  obtain ⟨label,rfl,_⟩ := h
  simp only [List.length_append,List.length_cons]
  omega

theorem parentsOf_sorted (query : List UInt8) :
    (query :: parentsOf query).Pairwise fun a b => b.length < a.length := by
  have hhead : ∀ name ∈ parentsOf query, name.length < query.length :=
    fun name h => (mem_parentsOf.mp h).length_lt
  refine List.pairwise_cons.mpr ⟨hhead,?_⟩
  clear hhead
  induction query with
  | nil => exact List.Pairwise.nil
  | cons c rest ih =>
    rw [parentsOf]
    split_ifs
    · exact List.pairwise_cons.mpr ⟨fun name h => (mem_parentsOf.mp h).length_lt,ih⟩
    · exact List.Pairwise.nil
    · exact ih

/-- Searching a list of strictly decreasing size finds the largest hit. -/
theorem findSome_eq_some_iff {α β : Type} (size : α → Nat) (f : α → Option β) {as : List α}
    (h : as.Pairwise fun a b => size b < size a) {b : β} :
    as.findSome? f = some b ↔
      ∃ a ∈ as, f a = some b ∧ ∀ a' ∈ as, size a < size a' → f a' = none := by
  induction as with
  | nil => simp
  | cons a as ih =>
    obtain ⟨hhead,htail⟩ := List.pairwise_cons.mp h
    rw [List.findSome?_cons]
    cases ha : f a with
    | some b' =>
      constructor
      · intro heq
        refine ⟨a,List.mem_cons_self,ha.trans heq,?_⟩
        intro a' ha' hlt
        rcases List.mem_cons.mp ha' with rfl | hmem
        · omega
        · have := hhead a' hmem
          omega
      · rintro ⟨a',hmem,hb,hlargest⟩
        rcases List.mem_cons.mp hmem with rfl | hmem
        · rw [← ha,hb]
        · have hnone := hlargest a List.mem_cons_self (hhead a' hmem)
          rw [ha] at hnone
          cases hnone
    | none =>
      rw [ih htail]
      constructor
      · rintro ⟨a',hmem,hb,hlargest⟩
        refine ⟨a',List.mem_cons_of_mem a hmem,hb,?_⟩
        intro c hc hlt
        rcases List.mem_cons.mp hc with rfl | hc
        · exact ha
        · exact hlargest c hc hlt
      · rintro ⟨a',hmem,hb,hlargest⟩
        rcases List.mem_cons.mp hmem with rfl | hmem
        · rw [ha] at hb
          cases hb
        · exact ⟨a',hmem,hb,fun c hc hlt => hlargest c (List.mem_cons_of_mem a hc) hlt⟩

theorem mem_candidates {query name : List UInt8} :
    name ∈ query :: parentsOf query ↔ Candidate query name := by
  rw [List.mem_cons,mem_parentsOf,Candidate]

theorem findSome_candidates (query : List UInt8) (f : List UInt8 → Option ServiceConfig)
    (svc : ServiceConfig) :
    (query :: parentsOf query).findSome? f = some svc ↔
      ∃ name, Candidate query name ∧ f name = some svc ∧
        ∀ name', Candidate query name' → name.length < name'.length → f name' = none := by
  rw [findSome_eq_some_iff List.length f (parentsOf_sorted query)]
  simp only [mem_candidates]

/-- What `find` makes of a hash. -/
def lookup (m : ServiceMap) (hash : BitVec 64) : Option ServiceConfig :=
  (m.find hash).toOption.join

theorem find_lookup (m : ServiceMap) (name : List UInt8) :
    m.find (hashDomain name) = .ok (lookup m (hashDomain name)) := by
  obtain ⟨r,hr⟩ := m.find_ok (hashDomain_ne_zero name)
  rw [lookup,hr]
  rfl

theorem findParent_eq (m : ServiceMap) (name : List UInt8) :
    ServiceRegistry.findParent m name =
      .ok ((parentsOf name).findSome? fun parent => lookup m (hashDomain parent)) := by
  induction name with
  | nil => rfl
  | cons c rest ih =>
    rw [ServiceRegistry.findParent,parentsOf]
    change (if c = dot then if dot ∈ rest then _ else _ else _) = _
    split_ifs
    · rw [find_lookup,List.findSome?_cons,ih]
      cases lookup m (hashDomain rest) <;> rfl
    · rfl
    · exact ih

theorem findByDomain_eq (r : ServiceRegistry) {query : List UInt8} (hne : query ≠ [])
    (hlen : query.length ≤ 255) :
    r.findByDomain query = .ok ((query :: parentsOf query).findSome? fun name =>
      lookup r.domainMap (hashDomain name)) := by
  have hshort : ¬ (query = [] ∨ query.length > 255) := by
    rintro (h | h)
    · exact hne h
    · omega
  rw [ServiceRegistry.findByDomain,if_neg hshort,find_lookup,List.findSome?_cons,findParent_eq]
  cases lookup r.domainMap (hashDomain query) <;> rfl

end Walk

section Table

variable {regs : List Registration} {m : ServiceMap}

/-- The table that the registrations leave. -/
def Filled (regs : List Registration) (m : ServiceMap) : Prop :=
  m.table.Represents 0 (2 ^ 9) (regs.map Registration.op)

theorem filled_new : Filled [] .new := by
  refine ⟨new_wf ..,rfl,rfl,?_,?_,?_⟩
  · intro k v
    simp [ServiceMap.new,replay,new_not_stored]
  · intro k
    simp [ServiceMap.new,liveKeys,new_not_stored]
  · simp [ServiceMap.new,liveKeys,SingleThreadHashMap.new]

theorem Filled.insert (h : Filled regs m) (reg : Registration)
    (hroom : regs.length < maxServices) :
    ∃ m', m.insert (hashDomain reg.name) reg.entry = .ok m' ∧ Filled (regs ++ [reg]) m' := by
  have hlive : (liveKeys (regs.map Registration.op)).card < 2 ^ 9 := by
    have hle := liveKeys_card_le (regs.map Registration.op)
    rw [List.length_map] at hle
    unfold maxServices at hroom
    omega
  obtain ⟨b,table,hop,hrep⟩ := Represents.emplace h (hashDomain reg.name) reg.entry
    (hashDomain_ne_zero reg.name) hlive
  obtain ⟨⟨b',table'⟩,hput,hret⟩ := (bind_ok_iff ..).mp hop
  cases hret
  unfold ServiceMap.insert
  split
  · rename_i fault hfault
    rw [hput] at hfault
    cases hfault
  · rename_i b'' table'' htable
    rw [hput] at htable
    cases htable
    refine ⟨_,rfl,?_⟩
    rw [Filled,List.map_append]
    exact hrep

theorem register_ok {r : ServiceRegistry} (h : Filled regs r.domainMap)
    (hcount : r.serviceCount = regs.length) (reg : Registration)
    (hroom : regs.length < maxServices) :
    ∃ r', register r reg = .ok (r',true) ∧ Filled (regs ++ [reg]) r'.domainMap ∧
      r'.serviceCount = regs.length + 1 := by
  obtain ⟨m,hput,hfilled⟩ := h.insert reg hroom
  refine ⟨{ r with serviceCount := r.serviceCount + 1, domainMap := m },?_,hfilled,
    congrArg (· + 1) hcount⟩
  have hopen : ¬ r.serviceCount ≥ maxServices := by omega
  have hput' : r.domainMap.insert (hashDomain reg.name)
      { reg.svc with identifier := reg.name } = .ok m := hput
  simp only [register,ServiceRegistry.registerDomain,if_neg hopen,hput',bind,Except.bind,pure,
    Except.pure]

/-- Up to 256 registrations all succeed. -/
theorem registerAll (regs : List Registration) (h : regs.length ≤ maxServices) :
    ∃ r, runOut register .new regs = .ok (r,regs.map fun _ => true) ∧
      Filled regs r.domainMap ∧ r.serviceCount = regs.length := by
  induction regs using List.reverseRecOn with
  | nil => exact ⟨.new,rfl,filled_new,rfl⟩
  | append_singleton regs reg ih =>
    rw [List.length_append,List.length_singleton] at h
    obtain ⟨r,hrun,hfilled,hcount⟩ := ih (by omega)
    obtain ⟨r',hstep,hfilled',hcount'⟩ := register_ok hfilled hcount reg (by omega)
    refine ⟨r',?_,hfilled',?_⟩
    · rw [List.map_append]
      exact (runOut_append ..).mpr ⟨r,_,[true],hrun,
        (runOut_cons ..).mpr ⟨r',true,[],hstep,rfl,rfl⟩,rfl⟩
    · rw [hcount',List.length_append,List.length_singleton]

/-- A lookup sees the hashes of the registered names that are near their home slot. -/
theorem Filled.lookup_iff (h : Filled regs m) (name : List UInt8) (svc : ServiceConfig) :
    lookup m (hashDomain name) = some svc ↔
      Near m (hashDomain name) ∧ hashed regs (hashDomain name) = some svc := by
  have hne : hashDomain name ≠ m.table.emptyKey := by
    rw [h.emptyKey_eq]
    exact hashDomain_ne_zero name
  have hfind : lookup m (hashDomain name) = some svc ↔
      m.table.find (hashDomain name) = .ok (some svc) := by
    have heq := find_lookup m name
    rw [ServiceMap.find] at heq
    rw [heq,Except.ok.injEq]
  rw [hfind,h.wf.find_eq_some _ hne,← replay_ops,← h.stored]
  constructor
  · rintro ⟨p,hp,he,hd⟩
    have hkey := ((entry_eq_some ..).mp he).2
    exact ⟨⟨p,hp,(Prod.mk.inj hkey).1.symm,hd⟩,p,hp,he⟩
  · rintro ⟨⟨p,hp,hk,hd⟩,q,hq,he⟩
    have hp' : m.table.entries m.table.cells p = some (hashDomain name,(m.table.cells p).val) :=
      (entry_eq_some ..).mpr ⟨by rw [hk]; exact hne,by rw [hk]⟩
    have hpq := h.wf.distinct p q _ _ hp hq hp' he rfl
    subst hpq
    exact ⟨p,hp,he,hd⟩

theorem Filled.hashed_of_near (h : Filled regs m) {name : List UInt8}
    (hnear : Near m (hashDomain name)) : ∃ svc, hashed regs (hashDomain name) = some svc := by
  obtain ⟨p,hp,hk,_⟩ := hnear
  have hne : (m.table.cells p).key ≠ m.table.emptyKey := by
    rw [hk,h.emptyKey_eq]
    exact hashDomain_ne_zero name
  refine ⟨(m.table.cells p).val,?_⟩
  rw [← replay_ops,← h.stored]
  exact ⟨p,hp,(entry_eq_some ..).mpr ⟨hne,by rw [hk]⟩⟩

theorem Filled.lookup_none (h : Filled regs m) {name : List UInt8} :
    lookup m (hashDomain name) = none ↔ ¬ Near m (hashDomain name) := by
  rw [Option.eq_none_iff_forall_not_mem]
  simp only [Option.mem_def,h.lookup_iff]
  constructor
  · intro hno hnear
    obtain ⟨svc,hsvc⟩ := h.hashed_of_near hnear
    exact hno svc ⟨hnear,hsvc⟩
  · intro hfar svc hsvc
    exact hfar hsvc.1

end Table

section Exact

variable {regs : List Registration} {query name : List UInt8} {svc : ServiceConfig}

theorem Picks.own (h : Picks regs query name svc) :
    Candidate query name ∧ sameName name svc.identifier = true :=
  ⟨h.candidate,latest_same h.entry⟩

/-- A service that is registered both under a hash and under a name has the hash of the name. -/
theorem hash_eq_of_entry {hash : BitVec 64} (hhash : hashed regs hash = some svc)
    (hname : registered regs name = some svc) : hashDomain name = hash := by
  rw [hashDomain_sameName (latest_same hname)]
  exact of_decide_eq_true (latest_same hhash)

/-- The law in the order of the walk. -/
theorem exists_picks_iff : (∃ name, Picks regs query name svc) ↔
    (query :: parentsOf query).findSome? (registered regs) = some svc := by
  rw [findSome_candidates]
  exact exists_congr fun name => ⟨fun h => ⟨h.candidate,h.entry,h.longest⟩,
    fun h => ⟨h.1,h.2.1,h.2.2⟩⟩

variable {m : ServiceMap} (hfilled : Filled regs m)
include hfilled

/-- What the walk returns, in terms of hashes. -/
theorem walk_iff : (query :: parentsOf query).findSome? (fun name => lookup m (hashDomain name)) =
      some svc ↔
    ∃ name, Candidate query name ∧
      (Near m (hashDomain name) ∧ hashed regs (hashDomain name) = some svc) ∧
      ∀ name', Candidate query name' → name.length < name'.length →
        ¬ Near m (hashDomain name') := by
  simp only [findSome_candidates,hfilled.lookup_iff,hfilled.lookup_none]

variable {res : Option ServiceConfig}
  (hres : (query :: parentsOf query).findSome? (fun name => lookup m (hashDomain name)) = res)
include hres

theorem noMixUp_of_routesTo (h : RoutesTo regs query res) : NoMixUp regs m query := by
  subst hres
  constructor
  · intro name svc hpick
    obtain ⟨found,_,⟨hnear,hhash⟩,_⟩ := (walk_iff hfilled).mp ((h.law svc).mpr ⟨name,hpick⟩)
    rw [hash_eq_of_entry hhash hpick.entry]
    exact ⟨hnear,hhash⟩
  · intro name hname hnear hfirst
    obtain ⟨svc,hhash⟩ := hfilled.hashed_of_near hnear
    obtain ⟨name',hpick⟩ := (h.law svc).mp
      ((walk_iff hfilled).mpr ⟨name,hname,⟨hnear,hhash⟩,hfirst⟩)
    exact ⟨name',svc,hpick,hash_eq_of_entry hhash hpick.entry⟩

theorem routesTo_of_noMixUp (h : NoMixUp regs m query) : RoutesTo regs query res := by
  subst hres
  have hsound : ∀ svc, (query :: parentsOf query).findSome?
      (fun name => lookup m (hashDomain name)) = some svc → ∃ name, Picks regs query name svc := by
    intro svc hwalk
    obtain ⟨name,hname,⟨hnear,hhash⟩,hfirst⟩ := (walk_iff hfilled).mp hwalk
    obtain ⟨name',svc',hpick,heq⟩ := h.first name hname hnear hfirst
    have hsvc := (h.picked name' svc' hpick).2
    rw [heq,hhash] at hsvc
    cases hsvc
    exact ⟨name',hpick⟩
  refine ⟨fun svc => ⟨hsound svc,?_⟩,?_⟩
  · rintro ⟨name,hpick⟩
    cases hwalk : (query :: parentsOf query).findSome?
        (fun name => lookup m (hashDomain name)) with
    | none =>
      have hnone := List.findSome?_eq_none_iff.mp hwalk name (mem_candidates.mpr hpick.candidate)
      exact absurd (h.picked name svc hpick).1 (hfilled.lookup_none.mp hnone)
    | some svc' =>
      have hlaw := exists_picks_iff.mp ⟨name,hpick⟩
      rw [exists_picks_iff.mp (hsound svc' hwalk)] at hlaw
      exact hlaw
  · intro svc hwalk
    obtain ⟨name,hpick⟩ := hsound svc hwalk
    exact ⟨name,hpick.own⟩

end Exact

/-- After any registrations that fit, a lookup follows the law of names if and only if no hash
gets in the way: the name that the law picks is near its home slot and has not lost its hash to
another name, and the first candidate whose hash the table yields shares it with that name. -/
theorem routing_exact_iff (regs : List Registration) (hregs : regs.length ≤ maxServices)
    (query : List UInt8) (hne : query ≠ []) (hlen : query.length ≤ 255) :
    ∃ r res, runOut register .new regs = .ok (r,regs.map fun _ => true) ∧
      r.findByDomain query = .ok res ∧
      (RoutesTo regs query res ↔ NoMixUp regs r.domainMap query) := by
  obtain ⟨r,hrun,hfilled,_⟩ := registerAll regs hregs
  exact ⟨r,_,hrun,findByDomain_eq r hne hlen,noMixUp_of_routesTo hfilled rfl,
    routesTo_of_noMixUp hfilled rfl⟩

/-- The bytes of `shop.org`. -/
def shopName : List UInt8 := [0x73,0x68,0x6f,0x70,0x2e,0x6f,0x72,0x67]

/-- A service for `shop.org`, and the query `A.shop.org`. -/
theorem routing_exact_shop :
    ∃ r res, runOut register .new [⟨shopName,{ backendPort := 8080 }⟩] = .ok (r,[true]) ∧
      r.findByDomain (0x41 :: dot :: shopName) = .ok res ∧
      (RoutesTo [⟨shopName,{ backendPort := 8080 }⟩] (0x41 :: dot :: shopName) res ↔
        NoMixUp [⟨shopName,{ backendPort := 8080 }⟩] r.domainMap (0x41 :: dot :: shopName)) :=
  routing_exact_iff [⟨shopName,{ backendPort := 8080 }⟩] (by decide) (0x41 :: dot :: shopName)
    (by decide) (by decide)

/-- The bytes of `m4g6titgeqbce.com`. -/
def servedName : List UInt8 :=
  [0x6d,0x34,0x67,0x36,0x74,0x69,0x74,0x67,0x65,0x71,0x62,0x63,0x65,0x2e,0x63,0x6f,0x6d]

/-- The bytes of `lj56up2ca4zgo.com`. -/
def otherName : List UInt8 :=
  [0x6c,0x6a,0x35,0x36,0x75,0x70,0x32,0x63,0x61,0x34,0x7a,0x67,0x6f,0x2e,0x63,0x6f,0x6d]

/-- The two names have one hash, and the service of the one answers for the other. -/
theorem other_name_served :
    ∃ r res, runOut register .new [⟨servedName,{ backendPort := 8080 }⟩] = .ok (r,[true]) ∧
      r.findByDomain otherName = .ok res ∧
      res = some ⟨servedName,8080,false⟩ ∧
      ¬ RoutesTo [⟨servedName,{ backendPort := 8080 }⟩] otherName res := by
  refine ⟨_,_,rfl,rfl,by decide +kernel,?_⟩
  intro h
  obtain ⟨name,hname,hsame⟩ := h.own ⟨servedName,8080,false⟩ (by decide +kernel)
  have hmem := mem_candidates.mpr hname
  have hall : ∀ name ∈ otherName :: parentsOf otherName, sameName name servedName = false := by
    decide
  rw [hall name hmem] at hsame
  cases hsame

end Aethon.Tls
