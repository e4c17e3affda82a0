import Mathlib.Data.List.Basic

/-! Types as far as the order of declarations looks into them, and the descriptors behind the names
in a type. -/
set_option autoImplicit false

namespace Tp2cc

variable {δ σ : Type}

mutual

/-- A type with the descriptors the ordering reads; `none` is a null pointer. -/
inductive BoundType (δ : Type) where
  | tyName (descriptor : Option δ)
  | tyPointer (target : Option (BoundType δ))
  | tyArray (dims : List (Option (BoundType δ))) (element : Option (BoundType δ))
  | tySet (element : Option (BoundType δ))
  | tyFile (element : Option (BoundType δ))
  | tyRecord (nestedTypes fields : List (Option (BoundType δ)))
      (variantPart : Option (BoundVariant δ))
  | tyObject (descriptor : Option δ) (members : List (BoundMember δ))
  | tyInterface (members : List (BoundMember δ))
  | tyProcedural (params : List (Option (BoundType δ))) (returnType : Option (BoundType δ))
  | tyDistinct (underlying : Option (BoundType δ))
  | tyMetaclass (descriptor : Option δ)
  | tyEnum
  | tySubrange
  | tyString

inductive BoundVariant (δ : Type) where
  | mk (tagType : Option (BoundType δ)) (cases : List (BoundCase δ))

inductive BoundCase (δ : Type) where
  | mk (fields : List (Option (BoundType δ))) (variantPart : Option (BoundVariant δ))

inductive BoundMember (δ : Type) where
  | field (type : Option (BoundType δ))
  | method (params : List (Option (BoundType δ))) (returnType : Option (BoundType δ))
  | property (params : List (Option (BoundType δ))) (type : Option (BoundType δ))
  | type (type : Option (BoundType δ))

end

structure ClassSymbols (σ : Type) where
  parentSymbol : Option σ
  interfaceSymbols : List (Option σ)

structure TypeLinks (δ σ : Type) where
  descriptor : σ → Option δ
  symbol : δ → Option σ
  classInfo : δ → Option (ClassSymbols σ)
  metaclassTarget : δ → Option σ

section
variable [DecidableEq δ] (links : TypeLinks δ σ)

/-- A pointer to a descriptor goes into the set unless it is null. -/
def insertDescriptor (descriptor : Option δ) (dependencies : List δ) : List δ :=
  match descriptor with
  | none => dependencies
  | some d => dependencies.insert d

def insertSymbol (dependencies : List δ) (symbol : Option σ) : List δ :=
  insertDescriptor (symbol.bind links.descriptor) dependencies

def insertClassSymbols (descriptor : Option δ) (dependencies : List δ) : List δ :=
  match descriptor.bind links.classInfo with
  | none => dependencies
  | some info =>
    info.interfaceSymbols.foldl (insertSymbol links) (insertSymbol links dependencies info.parentSymbol)

mutual

def collectTypeDependencies : BoundType δ → List δ → List δ
  | .tyName descriptor, s => insertDescriptor descriptor s
  | .tyPointer target, s => collectOptional target s
  | .tyArray dims element, s => collectOptional element (collectTypes dims s)
  | .tySet element, s => collectOptional element s
  | .tyFile element, s => collectOptional element s
  | .tyRecord nestedTypes fields variantPart, s =>
    collectVariantDependencies variantPart (collectTypes fields (collectTypes nestedTypes s))
  | .tyObject descriptor members, s =>
    collectMembers true members (insertClassSymbols links descriptor s)
  | .tyInterface members, s => collectMembers false members s
  | .tyProcedural params returnType, s => collectOptional returnType (collectTypes params s)
  | .tyDistinct underlying, s => collectOptional underlying s
  | .tyMetaclass descriptor, s => insertSymbol links s (descriptor.bind links.metaclassTarget)
  | .tyEnum, s => s
  | .tySubrange, s => s
  | .tyString, s => s

def collectOptional : Option (BoundType δ) → List δ → List δ
  | none, s => s
  | some type, s => collectTypeDependencies type s

def collectTypes : List (Option (BoundType δ)) → List δ → List δ
  | [], s => s
  | type :: types, s => collectTypes types (collectOptional type s)

def collectVariantDependencies : Option (BoundVariant δ) → List δ → List δ
  | none, s => s
  | some (.mk tagType cases), s => collectCases cases (collectOptional tagType s)

def collectCases : List (BoundCase δ) → List δ → List δ
  | [], s => s
  | .mk fields variantPart :: cases, s =>
    collectCases cases (collectVariantDependencies variantPart (collectTypes fields s))

/-- Of an interface only the methods and the nested types count. -/
def collectMembers (isObject : Bool) : List (BoundMember δ) → List δ → List δ
  | [], s => s
  | .field type :: members, s =>
    collectMembers isObject members (if isObject then collectOptional type s else s)
  | .method params returnType :: members, s =>
    collectMembers isObject members (collectOptional returnType (collectTypes params s))
  | .property params type :: members, s =>
    collectMembers isObject members
      (if isObject then collectOptional type (collectTypes params s) else s)
  | .type type :: members, s => collectMembers isObject members (collectOptional type s)

end

end

/-- Of an interface only the methods and the nested types are written. -/
def BoundMember.inInterface : BoundMember δ → Bool
  | .method _ _ => true
  | .type _ => true
  | _ => false

section
variable (links : TypeLinks δ σ)

mutual

/-- The descriptor is behind a name that the C++ type is written with. -/
inductive Mentions : BoundType δ → δ → Prop
  | name {d : δ} : Mentions (.tyName (some d)) d
  | target {t : BoundType δ} {d : δ} (h : Mentions t d) : Mentions (.tyPointer (some t)) d
  | dimension {dims : List (Option (BoundType δ))} {element : Option (BoundType δ)}
      {t : BoundType δ} {d : δ} (ht : some t ∈ dims) (h : Mentions t d) :
      Mentions (.tyArray dims element) d
  | arrayElement {dims : List (Option (BoundType δ))} {t : BoundType δ} {d : δ} (h : Mentions t d) :
      Mentions (.tyArray dims (some t)) d
  | setElement {t : BoundType δ} {d : δ} (h : Mentions t d) : Mentions (.tySet (some t)) d
  | fileElement {t : BoundType δ} {d : δ} (h : Mentions t d) : Mentions (.tyFile (some t)) d
  | nestedType {nestedTypes fields : List (Option (BoundType δ))}
      {variantPart : Option (BoundVariant δ)} {t : BoundType δ} {d : δ} (ht : some t ∈ nestedTypes)
      (h : Mentions t d) : Mentions (.tyRecord nestedTypes fields variantPart) d
  | recordField {nestedTypes fields : List (Option (BoundType δ))}
      {variantPart : Option (BoundVariant δ)} {t : BoundType δ} {d : δ} (ht : some t ∈ fields)
      (h : Mentions t d) : Mentions (.tyRecord nestedTypes fields variantPart) d
  | variantPart {nestedTypes fields : List (Option (BoundType δ))} {v : BoundVariant δ} {d : δ}
      (h : VariantMentions v d) : Mentions (.tyRecord nestedTypes fields (some v)) d
  | parent {own d : δ} {info : ClassSymbols σ} {s : σ} {members : List (BoundMember δ)}
      (hinfo : links.classInfo own = some info) (hs : info.parentSymbol = some s)
      (hd : links.descriptor s = some d) : Mentions (.tyObject (some own) members) d
  | implemented {own d : δ} {info : ClassSymbols σ} {s : σ} {members : List (BoundMember δ)}
      (hinfo : links.classInfo own = some info) (hs : some s ∈ info.interfaceSymbols)
      (hd : links.descriptor s = some d) : Mentions (.tyObject (some own) members) d
  | objectMember {own : Option δ} {members : List (BoundMember δ)} {m : BoundMember δ} {d : δ}
      (hm : m ∈ members) (h : MemberMentions m d) : Mentions (.tyObject own members) d
  | interfaceMember {members : List (BoundMember δ)} {m : BoundMember δ} {d : δ} (hm : m ∈ members)
      (hwritten : m.inInterface = true) (h : MemberMentions m d) : Mentions (.tyInterface members) d
  | param {params : List (Option (BoundType δ))} {returnType : Option (BoundType δ)}
      {t : BoundType δ} {d : δ} (ht : some t ∈ params) (h : Mentions t d) :
      Mentions (.tyProcedural params returnType) d
  | result {params : List (Option (BoundType δ))} {t : BoundType δ} {d : δ} (h : Mentions t d) :
      Mentions (.tyProcedural params (some t)) d
  | underlying {t : BoundType δ} {d : δ} (h : Mentions t d) : Mentions (.tyDistinct (some t)) d
  | metaclass {own d : δ} {s : σ} (hs : links.metaclassTarget own = some s)
      (hd : links.descriptor s = some d) : Mentions (.tyMetaclass (some own)) d

inductive VariantMentions : BoundVariant δ → δ → Prop
  | tag {t : BoundType δ} {cases : List (BoundCase δ)} {d : δ} (h : Mentions t d) :
      VariantMentions (.mk (some t) cases) d
  | case {tagType : Option (BoundType δ)} {cases : List (BoundCase δ)} {c : BoundCase δ} {d : δ}
      (hc : c ∈ cases) (h : CaseMentions c d) : VariantMentions (.mk tagType cases) d

inductive CaseMentions : BoundCase δ → δ → Prop
  | field {fields : List (Option (BoundType δ))} {variantPart : Option (BoundVariant δ)}
      {t : BoundType δ} {d : δ} (ht : some t ∈ fields) (h : Mentions t d) :
      CaseMentions (.mk fields variantPart) d
  | variantPart {fields : List (Option (BoundType δ))} {v : BoundVariant δ} {d : δ}
      (h : VariantMentions v d) : CaseMentions (.mk fields (some v)) d

inductive MemberMentions : BoundMember δ → δ → Prop
  | field {t : BoundType δ} {d : δ} (h : Mentions t d) : MemberMentions (.field (some t)) d
  | methodParam {params : List (Option (BoundType δ))} {returnType : Option (BoundType δ)}
      {t : BoundType δ} {d : δ} (ht : some t ∈ params) (h : Mentions t d) :
      MemberMentions (.method params returnType) d
  | methodResult {params : List (Option (BoundType δ))} {t : BoundType δ} {d : δ}
      (h : Mentions t d) : MemberMentions (.method params (some t)) d
  | propertyParam {params : List (Option (BoundType δ))} {type : Option (BoundType δ)}
      {t : BoundType δ} {d : δ} (ht : some t ∈ params) (h : Mentions t d) :
      MemberMentions (.property params type) d
  | propertyType {params : List (Option (BoundType δ))} {t : BoundType δ} {d : δ}
      (h : Mentions t d) : MemberMentions (.property params (some t)) d
  | nestedType {t : BoundType δ} {d : δ} (h : Mentions t d) : MemberMentions (.type (some t)) d

end

end

section
variable {links : TypeLinks δ σ} {d : δ}

theorem exists_cons_some {types : List (Option (BoundType δ))} {type : Option (BoundType δ)}
    {p : BoundType δ → Prop} : (∃ t, some t ∈ type :: types ∧ p t) ↔
      (∃ t, type = some t ∧ p t) ∨ ∃ t, some t ∈ types ∧ p t := by
  constructor
  · rintro ⟨t, ht, hp⟩
    cases List.mem_cons.mp ht with
    | inl heq => exact .inl ⟨t, heq.symm, hp⟩
    | inr ht => exact .inr ⟨t, ht, hp⟩
  · rintro (⟨t, rfl, hp⟩ | ⟨t, ht, hp⟩)
    · exact ⟨t, List.mem_cons_self, hp⟩
    · exact ⟨t, List.mem_cons_of_mem _ ht, hp⟩

theorem field_mentions_iff {type : Option (BoundType δ)} :
    MemberMentions links (.field type) d ↔ ∃ t, type = some t ∧ Mentions links t d := by
  constructor
  · intro h
    cases h with
    | field h => exact ⟨_, rfl, h⟩
  · rintro ⟨t, rfl, h⟩
    exact .field h

theorem method_mentions_iff {params : List (Option (BoundType δ))}
    {returnType : Option (BoundType δ)} : MemberMentions links (.method params returnType) d ↔
      (∃ t, some t ∈ params ∧ Mentions links t d) ∨
        ∃ t, returnType = some t ∧ Mentions links t d := by
  constructor
  · intro h
    cases h with
    | methodParam ht h => exact .inl ⟨_, ht, h⟩
    | methodResult h => exact .inr ⟨_, rfl, h⟩
  · rintro (⟨t, ht, h⟩ | ⟨t, rfl, h⟩)
    · exact .methodParam ht h
    · exact .methodResult h

theorem property_mentions_iff {params : List (Option (BoundType δ))}
    {type : Option (BoundType δ)} : MemberMentions links (.property params type) d ↔
      (∃ t, some t ∈ params ∧ Mentions links t d) ∨ ∃ t, type = some t ∧ Mentions links t d := by
  constructor
  · intro h
    cases h with
    | propertyParam ht h => exact .inl ⟨_, ht, h⟩
    | propertyType h => exact .inr ⟨_, rfl, h⟩
  · rintro (⟨t, ht, h⟩ | ⟨t, rfl, h⟩)
    · exact .propertyParam ht h
    · exact .propertyType h

theorem type_mentions_iff {type : Option (BoundType δ)} :
    MemberMentions links (.type type) d ↔ ∃ t, type = some t ∧ Mentions links t d := by
  constructor
  · intro h
    cases h with
    | nestedType h => exact ⟨_, rfl, h⟩
  · rintro ⟨t, rfl, h⟩
    exact .nestedType h

end

section
variable [DecidableEq δ] {links : TypeLinks δ σ} {d : δ}

theorem mem_insertDescriptor {descriptor : Option δ} {s : List δ} :
    d ∈ insertDescriptor descriptor s ↔ d ∈ s ∨ descriptor = some d := by
  cases descriptor with
  | none => simp [insertDescriptor]
  | some own =>
    rw [insertDescriptor, List.mem_insert_iff, Option.some_inj, or_comm, eq_comm]

theorem mem_insertSymbol {symbol : Option σ} {s : List δ} : d ∈ insertSymbol links s symbol ↔
    d ∈ s ∨ ∃ x, symbol = some x ∧ links.descriptor x = some d := by
  rw [insertSymbol, mem_insertDescriptor, Option.bind_eq_some_iff]

theorem mem_foldl_insertSymbol {symbols : List (Option σ)} {s : List δ} :
    d ∈ symbols.foldl (insertSymbol links) s ↔
      d ∈ s ∨ ∃ x, some x ∈ symbols ∧ links.descriptor x = some d := by
  induction symbols generalizing s with
  | nil => simp
  | cons symbol symbols ih =>
    rw [List.foldl_cons, ih, mem_insertSymbol, or_assoc]
    apply or_congr_right
    constructor
    · rintro (⟨x, rfl, hd⟩ | ⟨x, hx, hd⟩)
      · exact ⟨x, List.mem_cons_self, hd⟩
      · exact ⟨x, List.mem_cons_of_mem _ hx, hd⟩
    · rintro ⟨x, hx, hd⟩
      cases List.mem_cons.mp hx with
      | inl heq => exact .inl ⟨x, heq.symm, hd⟩
      | inr hx => exact .inr ⟨x, hx, hd⟩

theorem mem_insertClassSymbols {own : Option δ} {members : List (BoundMember δ)} {s : List δ} :
    d ∈ insertClassSymbols links own s ∨ (∃ m ∈ members, MemberMentions links m d) ↔
      d ∈ s ∨ Mentions links (.tyObject own members) d := by
  constructor
  · rintro (h | ⟨m, hm, h⟩)
    · unfold insertClassSymbols at h
      split at h
      · exact .inl h
      · rename_i info hinfo
        obtain ⟨descriptor, rfl, hinfo⟩ := Option.bind_eq_some_iff.mp hinfo
        rcases mem_foldl_insertSymbol.mp h with h | ⟨x, hx, hd⟩
        · rcases mem_insertSymbol.mp h with h | ⟨x, hx, hd⟩
          · exact .inl h
          · exact .inr (.parent hinfo hx hd)
        · exact .inr (.implemented hinfo hx hd)
    · exact .inr (.objectMember hm h)
  · have hclass {descriptor : δ} {info : ClassSymbols σ}
        (hinfo : links.classInfo descriptor = some info) :
        insertClassSymbols links (some descriptor) s = info.interfaceSymbols.foldl
          (insertSymbol links) (insertSymbol links s info.parentSymbol) := by
      simp [insertClassSymbols, hinfo]
    rintro (h | h)
    · left
      unfold insertClassSymbols
      split
      · exact h
      · exact mem_foldl_insertSymbol.mpr (.inl (mem_insertSymbol.mpr (.inl h)))
    · cases h with
      | parent hinfo hs hd =>
        rw [hclass hinfo, mem_foldl_insertSymbol, mem_insertSymbol]
        exact .inl (.inl (.inr ⟨_, hs, hd⟩))
      | implemented hinfo hs hd =>
        rw [hclass hinfo, mem_foldl_insertSymbol]
        exact .inl (.inr ⟨_, hs, hd⟩)
      | objectMember hm h => exact .inr ⟨_, hm, h⟩

mutual

theorem mem_collectTypeDependencies (t : BoundType δ) (s : List δ) :
    d ∈ collectTypeDependencies links t s ↔ d ∈ s ∨ Mentions links t d := by
  cases t with
  | tyName descriptor =>
    rw [collectTypeDependencies, mem_insertDescriptor]
    apply or_congr_right
    constructor
    · rintro rfl
      exact .name
    · intro h
      cases h
      rfl
  | tyPointer target =>
    rw [collectTypeDependencies, mem_collectOptional]
    apply or_congr_right
    constructor
    · rintro ⟨t, rfl, h⟩
      exact .target h
    · intro h
      cases h with
      | target h => exact ⟨_, rfl, h⟩
  | tyArray dims element =>
    rw [collectTypeDependencies, mem_collectOptional, mem_collectTypes, or_assoc]
    apply or_congr_right
    constructor
    · rintro (⟨t, ht, h⟩ | ⟨t, rfl, h⟩)
      · exact .dimension ht h
      · exact .arrayElement h
    · intro h
      cases h with
      | dimension ht h => exact .inl ⟨_, ht, h⟩
      | arrayElement h => exact .inr ⟨_, rfl, h⟩
  | tySet element =>
    rw [collectTypeDependencies, mem_collectOptional]
    apply or_congr_right
    constructor
    · rintro ⟨t, rfl, h⟩
      exact .setElement h
    · intro h
      cases h with
      | setElement h => exact ⟨_, rfl, h⟩
  | tyFile element =>
    rw [collectTypeDependencies, mem_collectOptional]
    apply or_congr_right
    constructor
    · rintro ⟨t, rfl, h⟩
      exact .fileElement h
    · intro h
      cases h with
      | fileElement h => exact ⟨_, rfl, h⟩
  | tyRecord nestedTypes fields variantPart =>
    rw [collectTypeDependencies, mem_collectVariantDependencies, mem_collectTypes,
      mem_collectTypes, or_assoc, or_assoc]
    apply or_congr_right
    constructor
    · rintro (⟨t, ht, h⟩ | ⟨t, ht, h⟩ | ⟨v, rfl, h⟩)
      · exact .nestedType ht h
      · exact .recordField ht h
      · exact .variantPart h
    · intro h
      cases h with
      | nestedType ht h => exact .inl ⟨_, ht, h⟩
      | recordField ht h => exact .inr (.inl ⟨_, ht, h⟩)
      | variantPart h => exact .inr (.inr ⟨_, rfl, h⟩)
  | tyObject descriptor members =>
    rw [collectTypeDependencies, mem_collectMembers, ← mem_insertClassSymbols]
    simp only [true_or, true_and]
  | tyInterface members =>
    rw [collectTypeDependencies, mem_collectMembers]
    apply or_congr_right
    constructor
    · rintro ⟨m, hm, hwritten, h⟩
      exact .interfaceMember hm (hwritten.resolve_left Bool.false_ne_true) h
    · intro h
      cases h with
      | interfaceMember hm hwritten h => exact ⟨_, hm, .inr hwritten, h⟩
  | tyProcedural params returnType =>
    rw [collectTypeDependencies, mem_collectOptional, mem_collectTypes, or_assoc]
    apply or_congr_right
    constructor
    · rintro (⟨t, ht, h⟩ | ⟨t, rfl, h⟩)
      · exact .param ht h
      · exact .result h
    · intro h
      cases h with
      | param ht h => exact .inl ⟨_, ht, h⟩
      | result h => exact .inr ⟨_, rfl, h⟩
  | tyDistinct underlying =>
    rw [collectTypeDependencies, mem_collectOptional]
    apply or_congr_right
    constructor
    · rintro ⟨t, rfl, h⟩
      exact .underlying h
    · intro h
      cases h with
      | underlying h => exact ⟨_, rfl, h⟩
  | tyMetaclass descriptor =>
    rw [collectTypeDependencies, mem_insertSymbol]
    apply or_congr_right
    constructor
    · rintro ⟨x, hx, hd⟩
      obtain ⟨own, rfl, hs⟩ := Option.bind_eq_some_iff.mp hx
      exact .metaclass hs hd
    · intro h
      cases h with
      | metaclass hs hd => exact ⟨_, hs, hd⟩
  | tyEnum => exact (or_iff_left nofun).symm
  | tySubrange => exact (or_iff_left nofun).symm
  | tyString => exact (or_iff_left nofun).symm

theorem mem_collectOptional (type : Option (BoundType δ)) (s : List δ) :
    d ∈ collectOptional links type s ↔ d ∈ s ∨ ∃ t, type = some t ∧ Mentions links t d := by
  cases type with
  | none => simp [collectOptional]
  | some t =>
    rw [collectOptional, mem_collectTypeDependencies]
    simp only [Option.some_inj, exists_eq_left']

theorem mem_collectTypes (types : List (Option (BoundType δ))) (s : List δ) :
    d ∈ collectTypes links types s ↔ d ∈ s ∨ ∃ t, some t ∈ types ∧ Mentions links t d := by
  cases types with
  | nil => simp [collectTypes]
  | cons type types =>
    rw [collectTypes, mem_collectTypes, mem_collectOptional, exists_cons_some, or_assoc]

theorem mem_collectVariantDependencies (variantPart : Option (BoundVariant δ)) (s : List δ) :
    d ∈ collectVariantDependencies links variantPart s ↔
      d ∈ s ∨ ∃ v, variantPart = some v ∧ VariantMentions links v d := by
  cases variantPart with
  | none => simp [collectVariantDependencies]
  | some v =>
    cases v with
    | mk tagType cases =>
      rw [collectVariantDependencies, mem_collectCases, mem_collectOptional, or_assoc]
      simp only [Option.some_inj, exists_eq_left']
      apply or_congr_right
      constructor
      · rintro (⟨t, rfl, h⟩ | ⟨c, hc, h⟩)
        · exact .tag h
        · exact .case hc h
      · intro h
        cases h with
        | tag h => exact .inl ⟨_, rfl, h⟩
        | case hc h => exact .inr ⟨_, hc, h⟩

theorem mem_collectCases (cases' : List (BoundCase δ)) (s : List δ) :
    d ∈ collectCases links cases' s ↔ d ∈ s ∨ ∃ c ∈ cases', CaseMentions links c d := by
  cases cases' with
  | nil => simp [collectCases]
  | cons c rest =>
    cases c with
    | mk fields variantPart =>
      rw [collectCases, mem_collectCases, mem_collectVariantDependencies, mem_collectTypes,
        List.exists_mem_cons_iff, or_assoc, or_assoc]
      apply or_congr_right
      rw [← or_assoc]
      apply or_congr_left
      constructor
      · rintro (⟨t, ht, h⟩ | ⟨v, rfl, h⟩)
        · exact .field ht h
        · exact .variantPart h
      · intro h
        cases h with
        | field ht h => exact .inl ⟨_, ht, h⟩
        | variantPart h => exact .inr ⟨_, rfl, h⟩

theorem mem_collectMembers (isObject : Bool) (members : List (BoundMember δ)) (s : List δ) :
    d ∈ collectMembers links isObject members s ↔ d ∈ s ∨ ∃ m ∈ members,
      (isObject = true ∨ m.inInterface = true) ∧ MemberMentions links m d := by
  cases members with
  | nil => simp [collectMembers]
  | cons m members =>
    rw [List.exists_mem_cons_iff]
    cases m with
    | field type =>
      rw [collectMembers, mem_collectMembers, ← or_assoc, field_mentions_iff]
      apply or_congr_left
      cases isObject with
      | true => simp [mem_collectOptional]
      | false => simp [BoundMember.inInterface]
    | method params returnType =>
      rw [collectMembers, mem_collectMembers, ← or_assoc, method_mentions_iff, mem_collectOptional,
        mem_collectTypes]
      simp only [BoundMember.inInterface, or_true, true_and, or_assoc]
    | property params type =>
      rw [collectMembers, mem_collectMembers, ← or_assoc, property_mentions_iff]
      apply or_congr_left
      cases isObject with
      | true => simp [mem_collectOptional, mem_collectTypes, or_assoc]
      | false => simp [BoundMember.inInterface]
    | type type =>
      rw [collectMembers, mem_collectMembers, ← or_assoc, type_mentions_iff, mem_collectOptional]
      simp only [BoundMember.inInterface, or_true, true_and]

end

end

end Tp2cc
