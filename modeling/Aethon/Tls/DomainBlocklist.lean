import Mathlib.Data.List.Basic

/-!
# The domain list

The names that the TLS policy consults. Names are byte strings; the set of the source is a
list here, of which only membership and emptiness matter.
-/

namespace Aethon.Tls

def dot : UInt8 := 0x2e

/-- `tolower` in the C locale. -/
def toLower (b : UInt8) : UInt8 := if 0x41 ≤ b ∧ b ≤ 0x5a then b + 0x20 else b

structure DomainBlocklist where
  blockedDomains : List (List UInt8) := []

namespace DomainBlocklist

def addDomain (l : DomainBlocklist) (domain : List UInt8) : DomainBlocklist :=
  ⟨domain.map toLower :: l.blockedDomains⟩

/-- The loop over the dots of a name. The search for the next dot starts right after the last
one, so the parent domain is also the rest to search. -/
def parentListed (listed : List (List UInt8)) : List UInt8 → Bool
  | [] => false
  | c :: parentDomain =>
      if c = dot then
        if dot ∈ parentDomain then
          if listed.contains parentDomain then true else parentListed listed parentDomain
        else false
      else parentListed listed parentDomain

def isAllowed (l : DomainBlocklist) (domain : List UInt8) : Bool :=
  if domain = [] ∨ domain.length > 255 then false
  else if l.blockedDomains = [] then true
  else
    let lowerDomain := domain.map toLower
    if l.blockedDomains.contains lowerDomain then false
    else parentListed l.blockedDomains lowerDomain

end DomainBlocklist

/-- The text after a dot of `name`, with a dot of its own. -/
def IsParent (name parent : List UInt8) : Prop :=
  ∃ label, name = label ++ dot :: parent ∧ dot ∈ parent

theorem isParent_cons {c : UInt8} {rest parent : List UInt8} :
    IsParent (c :: rest) parent ↔
      (c = dot ∧ rest = parent ∧ dot ∈ parent) ∨ IsParent rest parent := by
  constructor
  · rintro ⟨label,hname,hdot⟩
    cases label with
    | nil =>
      obtain ⟨rfl,rfl⟩ := List.cons.inj hname
      exact Or.inl ⟨rfl,rfl,hdot⟩
    | cons a label =>
      obtain ⟨rfl,hrest⟩ := List.cons.inj hname
      exact Or.inr ⟨label,hrest,hdot⟩
  · rintro (⟨rfl,rfl,hdot⟩ | ⟨label,rfl,hdot⟩)
    · exact ⟨[],rfl,hdot⟩
    · exact ⟨c :: label,rfl,hdot⟩

theorem not_isParent_of_not_mem {name parent : List UInt8} (h : dot ∉ name) :
    ¬ IsParent name parent := by
  rintro ⟨label,rfl,_⟩
  simp at h

namespace DomainBlocklist

/-- The walk finds a listed parent if there is one. -/
theorem parentListed_iff (listed : List (List UInt8)) (name : List UInt8) :
    parentListed listed name = true ↔ ∃ parent, IsParent name parent ∧ parent ∈ listed := by
  induction name with
  | nil => simp [parentListed,IsParent]
  | cons c rest ih =>
    simp only [parentListed,isParent_cons,List.contains_iff_mem]
    split_ifs with hc hdot hlisted
    · exact iff_of_true rfl ⟨rest,Or.inl ⟨hc,rfl,hdot⟩,hlisted⟩
    · rw [ih]
      refine exists_congr fun parent => ⟨fun h => ⟨Or.inr h.1,h.2⟩,?_⟩
      rintro ⟨⟨_,rfl,_⟩ | hparent,hmem⟩
      · exact absurd hmem hlisted
      · exact ⟨hparent,hmem⟩
    · refine iff_of_false (by simp) ?_
      rintro ⟨parent,⟨_,rfl,hparent⟩ | hparent,_⟩
      · exact hdot hparent
      · exact not_isParent_of_not_mem hdot hparent
    · simp [ih,hc]

/-- The list after `names` were entered. -/
def entered (names : List (List UInt8)) : DomainBlocklist := names.foldl addDomain {}

theorem mem_foldl_addDomain {name : List UInt8} (names : List (List UInt8))
    (l : DomainBlocklist) :
    name ∈ (names.foldl addDomain l).blockedDomains ↔
      name ∈ names.map (List.map toLower) ∨ name ∈ l.blockedDomains := by
  induction names generalizing l with
  | nil => simp
  | cons first names ih =>
    rw [List.foldl_cons,ih]
    simp only [addDomain,List.mem_cons,List.map_cons]
    tauto

theorem mem_entered {name : List UInt8} (names : List (List UInt8)) :
    name ∈ (entered names).blockedDomains ↔ name ∈ names.map (List.map toLower) := by
  simp [entered,mem_foldl_addDomain]

/-- The names that an allowlist of `names` lets pass: a listed name or a name with a listed
parent, whatever the case of the letters. -/
def Admits (names : List (List UInt8)) (domain : List UInt8) : Prop :=
  domain.map toLower ∈ names.map (List.map toLower) ∨
    ∃ parent, IsParent (domain.map toLower) parent ∧ parent ∈ names.map (List.map toLower)

/-- `is_allowed` is the law of an allowlist for the names that are not listed themselves, and
for no other. -/
theorem allowlist_law_iff (names : List (List UInt8)) (domain : List UInt8) (hnames : names ≠ [])
    (hdomain : domain ≠ []) (hlen : domain.length ≤ 255) :
    ((entered names).isAllowed domain = true ↔ Admits names domain) ↔
      domain.map toLower ∉ names.map (List.map toLower) := by
  have hshort : ¬ (domain = [] ∨ domain.length > 255) := by
    rintro (h | h)
    · exact hdomain h
    · omega
  have hsome : (entered names).blockedDomains ≠ [] := by
    obtain ⟨first,rest,rfl⟩ := List.exists_cons_of_ne_nil hnames
    have hfirst := (mem_entered (first :: rest)).mpr (List.mem_map_of_mem List.mem_cons_self)
    exact List.ne_nil_of_mem hfirst
  simp only [isAllowed,if_neg hshort,if_neg hsome,List.contains_iff_mem,mem_entered]
  by_cases hlisted : domain.map toLower ∈ names.map (List.map toLower)
  · simp [hlisted,Admits]
  · simp only [hlisted,if_false,parentListed_iff,mem_entered,Admits,false_or,not_false_eq_true]

/-- The bytes of `mydomain.com`. -/
def myDomain : List UInt8 := [0x6d,0x79,0x64,0x6f,0x6d,0x61,0x69,0x6e,0x2e,0x63,0x6f,0x6d]

/-- A name below `mydomain.com` passes if the law of the list says so. -/
theorem allowlist_law_subdomain :
    (entered [myDomain]).isAllowed ([0x41,0x70,0x69,0x2e] ++ myDomain) = true ↔
      Admits [myDomain] ([0x41,0x70,0x69,0x2e] ++ myDomain) :=
  (allowlist_law_iff [myDomain] ([0x41,0x70,0x69,0x2e] ++ myDomain) (by decide) (by decide)
    (by decide)).mpr (by decide)

theorem listed_name_refused :
    ¬ ((entered [myDomain]).isAllowed myDomain = true ↔ Admits [myDomain] myDomain) := by
  intro h
  have hallowed := h.mpr (Or.inl (List.mem_singleton.mpr rfl))
  exact absurd hallowed (by decide)

end DomainBlocklist

end Aethon.Tls
