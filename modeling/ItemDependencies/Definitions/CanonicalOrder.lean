import ItemDependencies.Definitions.CanonicalDefinitions
import ItemDependencies.Definitions.Reduction

/-!
# The order of canonical definitions

Where the chains of parents end and siblings are told apart by their parts, the walk from the crate
root takes every definition once and behind its parent.
-/

namespace ItemDependencies

open Library List

variable {definitions : List RawDefinition} {root d e : RawDefinition}

/-- The definition with the compiler id of the parent. -/
def parentOf (definitions : List RawDefinition) (d : RawDefinition) : Option RawDefinition :=
  d.parent.bind fun parent => definitions.find? fun e => e.compilerId = parent

/-- A list of definitions that can be keyed: ids are distinct, the chains of parents end, the crate
root has no parent, and no two siblings have the same part. -/
structure Keyed (definitions : List RawDefinition) : Prop where
  distinct : DistinctCompilerIds definitions
  root : ∀ d ∈ definitions, d.compilerId = crateDefId → d.parent = none
  listed : ∀ d ∈ definitions, ∀ p, d.parent = some p → ∃ e ∈ definitions, e.compilerId = p
  grounded : ∀ d ∈ definitions, Grounded (parentOf definitions) definitions.toFinset d
  apart : ∀ d ∈ definitions, ∀ e ∈ definitions, d.parent = e.parent → d.keyPart = e.keyPart → d = e

theorem DistinctCompilerIds.eq (h : DistinctCompilerIds definitions) (hd : d ∈ definitions)
    (he : e ∈ definitions) (heq : d.compilerId = e.compilerId) : d = e :=
  inj_on_of_nodup_map h hd he heq

theorem mem_definitionChildren {id : Nat} :
    d ∈ definitionChildren definitions id ↔ d ∈ definitions ∧ d.parent = some id := by
  rw [definitionChildren, mem_insertionSort, mem_filter, decide_eq_true_iff]

theorem parentOf_eq_some (h : DistinctCompilerIds definitions) (he : e ∈ definitions)
    (hp : d.parent = some e.compilerId) : parentOf definitions d = some e := by
  unfold parentOf
  rw [hp, Option.bind_some]
  cases hfind : definitions.find? fun e' => e'.compilerId = e.compilerId with
  | none =>
    refine absurd ?_ (find?_eq_none.mp hfind e he)
    rw [decide_eq_true_iff]
  | some e' =>
    have hid : e'.compilerId = e.compilerId := by simpa using find?_some hfind
    rw [h.eq (mem_of_find?_eq_some hfind) he hid]

/-- A definition without a parent in the list has none at all. -/
theorem Keyed.parent_eq_none (h : Keyed definitions) (hd : d ∈ definitions)
    (hp : parentOf definitions d = none) : d.parent = none := by
  cases hparent : d.parent with
  | none => rfl
  | some p =>
    obtain ⟨e, he, rfl⟩ := h.listed d hd p hparent
    rw [parentOf_eq_some h.distinct he hparent] at hp
    cases hp

theorem parent_of_parentOf (h : parentOf definitions d = some e) :
    d.parent = some e.compilerId := by
  obtain ⟨id, hid, hfind⟩ := Option.bind_eq_some_iff.mp h
  have heq : e.compilerId = id := by simpa using find?_some hfind
  rw [heq]
  exact hid

abbrev kidsOf (definitions : List RawDefinition) (d : RawDefinition) : List RawDefinition :=
  definitionChildren definitions d.compilerId

theorem kidsOf_parent (h : DistinctCompilerIds definitions) : ∀ a ∈ definitions.toFinset,
    ∀ c ∈ kidsOf definitions a, c ∈ definitions.toFinset ∧ parentOf definitions c = some a := by
  intro a ha c hc
  obtain ⟨hc, hp⟩ := mem_definitionChildren.mp hc
  exact ⟨mem_toFinset.mpr hc, parentOf_eq_some h (mem_toFinset.mp ha) hp⟩

/-- From a root that all others are below, every definition is taken once. -/
theorem Keyed.exists_order (h : Keyed definitions) (hroot : root ∈ definitions)
    (honly : ∀ d ∈ definitions, d.parent = none → d = root) :
    ∃ order, Traversal (kidsOf definitions) [root] order ∧ order.Perm definitions := by
  have hnodup : definitions.Nodup := List.Nodup.of_map _ h.distinct
  have hkids := kidsOf_parent h.distinct
  have hacyclic : ∀ a ∈ definitions.toFinset, ¬Relation.TransGen (Up (parentOf definitions)) a a :=
    fun a ha => (h.grounded a (mem_toFinset.mp ha)).irrefl
  obtain ⟨below, hbelow⟩ := exists_traversal_kids hkids hacyclic (mem_toFinset.mpr hroot)
  have htree : Traversal (kidsOf definitions) [root] (root :: (below ++ [])) := .cons hbelow .nil
  refine ⟨_, htree, ?_⟩
  have hmem : ∀ d ∈ root :: (below ++ []), d ∈ definitions.toFinset := by
    intro d hd
    obtain ⟨top, htop, hreach⟩ := htree.mem_iff.mp hd
    cases mem_singleton.mp htop
    exact (below_of_reach hkids (mem_toFinset.mpr hroot) hreach).1
  refine (perm_ext_iff_of_nodup ?_ hnodup).mpr fun d =>
    ⟨fun hd => mem_toFinset.mp (hmem d hd), fun hd => ?_⟩
  · refine htree.nodup_of_apart (fun a ha => ?_) (pairwise_singleton _ _)
    refine treesApart_kids hkids (hmem a ha) ?_ (hacyclic a (hmem a ha))
    exact (perm_insertionSort _ _).nodup_iff.mpr (hnodup.filter _)
  · -- the chain of parents ends at the root
    have hgrounded := h.grounded d hd
    induction hgrounded with
    | @root a ha hp =>
      rw [honly a hd (h.parent_eq_none hd hp)]
      exact mem_cons_self
    | @child a p ha hp hg ih =>
      have hpmem := mem_toFinset.mp hg.mem
      refine htree.mem_iff.mpr (inTrees_of_child (htree.mem_iff.mp (ih hpmem)) ?_)
      exact mem_definitionChildren.mpr ⟨hd, parent_of_parentOf hp⟩

/-! ## Numbers and keys -/

/-- The parent of a definition and its parts: it stands at an earlier place. -/
inductive UnderParent (order : List RawDefinition) (entries : List Definition) (k : Nat)
    (d : RawDefinition) : Option DefinitionId → List DefinitionKeyPart → Prop
  | root (hp : d.parent = none) : UnderParent order entries k d none []
  | child {j : Nat} {e : RawDefinition} {parent : Definition} (hlt : j < k)
      (he : order[j]? = some e) (hp : d.parent = some e.compilerId)
      (hparent : entries[j]? = some parent) :
      UnderParent order entries k d (some ⟨j⟩) parent.key.parts

/-- The definition that stands for the one at a place: its key is that of its parent with its own
part at the end. -/
structure StandsFor (order : List RawDefinition) (entries : List Definition) (k : Nat)
    (d : RawDefinition) (definition : Definition) : Prop where
  id : definition.id = ⟨k⟩
  kind : definition.kind = d.kind
  origin : definition.origin = d.origin
  key : ∃ parts, UnderParent order entries k d definition.parent parts ∧
    definition.key = ⟨parts ++ [d.keyPart]⟩

/-- Every definition that was taken has the number of its place. -/
structure Numbered (order : List RawDefinition) (state : CanonicalDefinitions) : Prop where
  length : state.definitions.length = order.length
  bases : state.productBases = order.map RawDefinition.productBasis
  ids : ∀ (k : Nat) (d : RawDefinition), order[k]? = some d → state.localIds d.compilerId = some ⟨k⟩
  entries : ∀ (k : Nat) (d : RawDefinition), order[k]? = some d →
    ∃ definition, state.definitions[k]? = some definition ∧
      StandsFor order state.definitions k d definition

theorem numbered_empty : Numbered [] .empty where
  length := rfl
  bases := rfl
  ids := by simp
  entries := by simp

variable {order : List RawDefinition} {state : CanonicalDefinitions}

theorem UnderParent.append {entries : List Definition} {k : Nat} {id : Option DefinitionId}
    {parts : List DefinitionKeyPart} (h : UnderParent order entries k d id parts)
    (more : List RawDefinition) (moreEntries : List Definition) :
    UnderParent (order ++ more) (entries ++ moreEntries) k d id parts := by
  cases h with
  | root hp => exact .root hp
  | child hlt he hp hparent =>
    refine .child hlt ?_ hp ?_
    · rw [getElem?_append_left (List.getElem?_eq_some_iff.mp he).1]
      exact he
    · rw [getElem?_append_left (List.getElem?_eq_some_iff.mp hparent).1]
      exact hparent

/-- The parent of the next definition is found, and so are its parts. -/
theorem Numbered.parent (h : Numbered order state)
    (hp : ∀ p, d.parent = some p → ∃ e ∈ order, e.compilerId = p) :
    UnderParent order state.definitions order.length d (d.parent.bind state.localIds)
      (((d.parent.bind state.localIds).bind fun parent => state.definitions[parent.index]?).elim []
        fun parent => parent.key.parts) := by
  cases hparent : d.parent with
  | none => exact .root hparent
  | some p =>
    obtain ⟨e, he, rfl⟩ := hp p hparent
    obtain ⟨j, hj⟩ := getElem?_of_mem he
    obtain ⟨parent, hentry, -⟩ := h.entries j e hj
    rw [Option.bind_some, h.ids j e hj, Option.bind_some, hentry]
    exact .child (List.getElem?_eq_some_iff.mp hj).1 hj hparent hentry

/-- One more definition, whose parent has been taken. -/
theorem Numbered.push (h : Numbered order state) (hnew : ∀ e ∈ order, e.compilerId ≠ d.compilerId)
    (hp : ∀ p, d.parent = some p → ∃ e ∈ order, e.compilerId = p) :
    Numbered (order ++ [d]) (state.push d) where
  length := by
    unfold CanonicalDefinitions.push
    rw [length_append, length_append, h.length]
    rfl
  bases := by
    unfold CanonicalDefinitions.push
    rw [h.bases, map_append]
    rfl
  ids k e he := by
    show Function.update state.localIds d.compilerId (some ⟨state.definitions.length⟩) _ = _
    rcases getElem?_concat_eq_some.mp he with he | ⟨rfl, rfl⟩
    · rw [Function.update_of_ne (hnew e (mem_of_getElem? he))]
      exact h.ids k e he
    · rw [Function.update_self, h.length]
  entries k e he := by
    unfold CanonicalDefinitions.push
    rcases getElem?_concat_eq_some.mp he with he | ⟨rfl, rfl⟩
    · obtain ⟨definition, hentry, hid, hkind, horigin, parts, hparts, hkey⟩ := h.entries k e he
      refine ⟨definition, ?_, hid, hkind, horigin, parts, hparts.append _ _, hkey⟩
      exact getElem?_append_left (List.getElem?_eq_some_iff.mp hentry).1 ▸ hentry
    · refine ⟨_, getElem?_concat_eq_some.mpr (.inr ⟨h.length.symm, rfl⟩), ?_, rfl, rfl, _,
        (h.parent hp).append _ _, rfl⟩
      rw [h.length]

/-- A walk that takes parents first gives every definition its number and its key. -/
theorem numbered_foldl (hdistinct : DistinctCompilerIds order)
    (hparents : ∀ (k : Nat) (d : RawDefinition), order[k]? = some d → ∀ p, d.parent = some p →
      ∃ (j : Nat) (e : RawDefinition), j < k ∧ order[j]? = some e ∧ e.compilerId = p) :
    Numbered order (order.foldl CanonicalDefinitions.push .empty) := by
  induction order using List.reverseRecOn with
  | nil => exact numbered_empty
  | append_singleton order d ih =>
    unfold DistinctCompilerIds at hdistinct
    rw [map_append, nodup_append] at hdistinct
    obtain ⟨hnodup, -, hdisjoint⟩ := hdistinct
    rw [foldl_append]
    refine (ih hnodup fun k e he p hp => ?_).push (fun e he => ?_) fun p hp => ?_
    · obtain ⟨j, e', hlt, he', hid⟩ := hparents k e (getElem?_concat_eq_some.mpr (.inl he)) p hp
      rcases getElem?_concat_eq_some.mp he' with he' | ⟨rfl, rfl⟩
      · exact ⟨j, e', hlt, he', hid⟩
      · have hk := (List.getElem?_eq_some_iff.mp he).1
        omega
    · exact hdisjoint _ (mem_map_of_mem he) _ (mem_singleton.mpr rfl)
    · obtain ⟨j, e', hlt, he', hid⟩ := hparents order.length d
        (getElem?_concat_eq_some.mpr (.inr ⟨rfl, rfl⟩)) p hp
      rcases getElem?_concat_eq_some.mp he' with he' | ⟨rfl, rfl⟩
      · exact ⟨e', mem_of_getElem? he', hid⟩
      · exact absurd hlt (lt_irrefl _)

/-! ## The whole walk -/

/-- The definition has a parent that is listed. -/
def HasParent (definitions : List RawDefinition) (d : RawDefinition) : Prop :=
  ∃ p, d.parent = some p ∧ ∃ e ∈ definitions, e.compilerId = p

/-- The crate root is listed, and so is a parent of every other definition. -/
def CrateRooted (definitions : List RawDefinition) (root : RawDefinition) : Prop :=
  root ∈ definitions ∧ root.compilerId = crateDefId ∧
    ∀ d ∈ definitions, d ≠ root → HasParent definitions d

theorem lacksParent_iff {index : Nat} (hnodup : definitions.Nodup)
    (hroot : definitions[index]? = some root) :
    lacksParent definitions index = true ↔
      ∃ d ∈ definitions, d ≠ root ∧ ¬HasParent definitions d := by
  have hhas : ∀ d : RawDefinition, (d.parent.all fun parent =>
      definitions.all fun definition => decide (definition.compilerId ≠ parent)) = true ↔
        ¬HasParent definitions d := by
    intro d
    unfold HasParent
    cases d.parent with
    | none => simp
    | some p =>
      simp only [Option.all_some, all_eq_true, decide_eq_true_eq, Option.some.injEq,
        exists_eq_left', not_exists, not_and]
  unfold lacksParent
  rw [any_eq_true]
  constructor
  · rintro ⟨⟨d, i⟩, hentry, h⟩
    rw [Bool.and_eq_true, decide_eq_true_iff, hhas] at h
    have hd := mem_zipIdx_iff_getElem?.mp hentry
    refine ⟨d, mem_of_getElem? hd, ?_, h.2⟩
    rintro rfl
    exact h.1 ((getElem?_inj (List.getElem?_eq_some_iff.mp hd).1 hnodup).mp (hd.trans hroot.symm))
  · rintro ⟨d, hd, hne, h⟩
    obtain ⟨i, hi⟩ := getElem?_of_mem hd
    refine ⟨(d, i), mem_zipIdx_iff_getElem?.mpr hi, ?_⟩
    rw [Bool.and_eq_true, decide_eq_true_iff, hhas]
    refine ⟨?_, h⟩
    rintro rfl
    exact hne (Option.some.inj (hi.symm.trans hroot))

/-- Without a root or a parent of another definition nothing is keyed. -/
theorem canonicalizeDefinitions_error (hnodup : definitions.Nodup)
    (h : ∀ root, ¬CrateRooted definitions root) :
    canonicalizeDefinitions definitions = some (.error .incompleteDefinition) := by
  unfold canonicalizeDefinitions
  cases hfind : definitions.findIdx? fun definition => definition.compilerId = crateDefId with
  | none => rfl
  | some index =>
    obtain ⟨hlt, hid, -⟩ := findIdx?_eq_some_iff_getElem.mp hfind
    have hroot := getElem?_eq_getElem hlt
    dsimp only
    rw [if_pos]
    rw [lacksParent_iff hnodup hroot]
    by_contra hall
    push Not at hall
    exact h _ ⟨getElem_mem hlt, of_decide_eq_true hid, hall⟩

/-- The walk reaches every definition once, and its result is that of taking them one after the
other. -/
theorem Keyed.canonicalize (h : Keyed definitions) (hroot : CrateRooted definitions root) :
    ∃ order, Traversal (kidsOf definitions) [root] order ∧ order.Perm definitions ∧
      canonicalizeDefinitions definitions =
        some (.ok (order.foldl CanonicalDefinitions.push .empty)) ∧
      Numbered order (order.foldl CanonicalDefinitions.push .empty) := by
  obtain ⟨hmem, hid, hothers⟩ := hroot
  have hnodup : definitions.Nodup := List.Nodup.of_map _ h.distinct
  have honly : ∀ d ∈ definitions, d.parent = none → d = root := by
    intro d hd hnone
    by_contra hne
    obtain ⟨p, hp, -⟩ := hothers d hd hne
    rw [hnone] at hp
    cases hp
  obtain ⟨order, htree, hperm⟩ := h.exists_order hmem honly
  have hdistinct : DistinctCompilerIds order := (hperm.map _).nodup_iff.mpr h.distinct
  have hnumbered : Numbered order (order.foldl CanonicalDefinitions.push .empty) := by
    refine numbered_foldl hdistinct fun k d hd p hp => ?_
    obtain ⟨e, he, rfl⟩ := h.listed d (hperm.mem_iff.mp (mem_of_getElem? hd)) p hp
    obtain ⟨j, hj⟩ := getElem?_of_mem (hperm.mem_iff.mpr he)
    refine ⟨j, e, htree.lt_of_child (hperm.nodup_iff.mpr hnodup) hj hd ?_, hj, rfl⟩
    exact mem_definitionChildren.mpr ⟨hperm.mem_iff.mp (mem_of_getElem? hd), hp⟩
  refine ⟨order, htree, hperm, ?_, hnumbered⟩
  unfold canonicalizeDefinitions
  cases hfind : definitions.findIdx? fun definition => definition.compilerId = crateDefId with
  | none =>
    have hnot := findIdx?_eq_none_iff.mp hfind root hmem
    rw [hid] at hnot
    simp at hnot
  | some index =>
    obtain ⟨hlt, hid', -⟩ := findIdx?_eq_some_iff_getElem.mp hfind
    have hget : definitions[index]? = some root := by
      rw [getElem?_eq_getElem hlt]
      exact congrArg some (h.distinct.eq (getElem_mem hlt) hmem
        ((of_decide_eq_true hid').trans hid.symm))
    have hlacks : ¬lacksParent definitions index = true := by
      rw [lacksParent_iff hnodup hget]
      rintro ⟨d, hd, hne, hnot⟩
      exact hnot (hothers d hd hne)
    have hwalk : appendDefinition definitions definitions.length .empty root =
        some (order.foldl CanonicalDefinitions.push .empty) := by
      have hrun : [root].foldlM (appendDefinition definitions definitions.length) .empty =
          some (order.foldl CanonicalDefinitions.push .empty) :=
        htree.depthFirst hperm.length_eq.le _
      rw [foldlM_cons] at hrun
      simp only [foldlM_nil, bind_pure] at hrun
      exact hrun
    dsimp only
    rw [if_neg hlacks, hget, Option.bind_some, hwalk, Option.map_some, completeDefinitions, if_neg]
    rw [hnumbered.length, hperm.length_eq]
    exact not_not.mpr rfl

end ItemDependencies
