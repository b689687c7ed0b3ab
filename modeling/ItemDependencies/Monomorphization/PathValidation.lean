import ItemDependencies.Monomorphization.AllocationKeys

/-!
# Validation of allocation paths

The dependency graph does not trust the keys of allocations.  Each must go on, by one part, from the
key of exactly one other node, along exactly one edge; and the ordinals of the parts must be
possible.
-/

namespace ItemDependencies.DependencyGraph

open Library List

/-- What the targets of an ordinal have in common. -/
abbrev AllocationRole := MonoId ×ₗ MonoDependencyKind ×ₗ MonoCollection ×ₗ AllocationPathSite

def allocationRole (source : MonoId) (relation : MonoDependencyKind) (collection : MonoCollection)
    (site : AllocationPathSite) : AllocationRole :=
  toLex (source, toLex (relation, toLex (collection, site)))

def keyMatchesAllocationRoot : MonoKey → AllocationRootKey → Bool
  | .instance key role, .instance rootKey rootRole => key = rootKey && role = rootRole
  | .static definition, .static rootDefinition => definition = rootDefinition
  | .vTable concreteType traitReference, .vTable rootType rootTrait =>
    concreteType = rootType && traitReference = rootTrait
  | _, _ => false

def allocationSiteMatches : AllocationPathSite → ObservationSite → Bool
  | .source expected, .source actual => expected = actual
  | .externalSource, .externalSource
  | .allocationReference, .allocationOffset _
  | .compilerGenerated, .compilerGenerated => true
  | _, _ => false

/-- The class of a site that fits the kind of its edge. -/
def allocationPathSite : MonoDependencyKind → ObservationSite → Option AllocationPathSite
  | .constAllocation, .source range => some (.source range)
  | .constAllocation, .externalSource => some .externalSource
  | .constAllocation, .compilerGenerated => some .compilerGenerated
  | .allocationReference, .compilerGenerated => some .compilerGenerated
  | .allocationReference, .allocationOffset _ => some .allocationReference
  | _, _ => none

/-- A key that the key of an allocation goes on from; `front` is its path without the last part. -/
def isAllocationParent (allocation : AllocationKey) (front : List AllocationPathPart) :
    MonoKey → Bool
  | .allocation parent =>
    !front.isEmpty && (parent.root = allocation.root && parent.path = front)
  | key => front.isEmpty && keyMatchesAllocationRoot key allocation.root

def isPathEdge (parent node : MonoId) (last : AllocationPathPart) (edge : DependencyEdge) : Bool :=
  edge.fromNode = .mono parent && edge.toNode = .mono node &&
    edge.kind = .mono last.relation last.collection &&
      edge.sites.any (allocationSiteMatches last.site)

/-- Note the ordinal of an allocation, if its path is well-formed. -/
def recordPath (nodes : List MonoNode) (edges : List DependencyEdge)
    (ordinals : SortedMap AllocationRole (List Nat)) (node : MonoNode) :
    Option (SortedMap AllocationRole (List Nat)) :=
  match node.key with
  | .allocation allocation =>
    match allocation.path.getLast? with
    | none => none
    | some last =>
      match nodes.filter fun candidate =>
          isAllocationParent allocation allocation.path.dropLast candidate.key with
      | [parent] =>
        if (edges.filter (isPathEdge parent.id node.id last)).length ≠ 1 then none
        else some (ordinals.addAt [] (fun values ordinal => values ++ [ordinal])
          (allocationRole parent.id last.relation last.collection last.site, last.sameRoleOrdinal))
      | _ => none
  | _ => some ordinals

/-- Note an allocation as a target of the roles of an edge.  Edges end at nodes that exist. -/
def recordTargets (nodes : List MonoNode) (targets : SortedMap AllocationRole (Finset MonoId))
    (edge : DependencyEdge) : Option (SortedMap AllocationRole (Finset MonoId)) :=
  match edge.toNode with
  | .mono target =>
    match nodes[target.index]?.map MonoNode.key with
    | some (.allocation _) =>
      match edge.kind, edge.fromNode with
      | .mono relation collection, .mono source =>
        edge.sites.foldlM (fun targets site => do
          let site ← allocationPathSite relation site
          return targets.addAt ∅ (fun ids id => ids ∪ {id})
            (allocationRole source relation collection site, target)) targets
      | _, _ => none
    | _ => some targets
  | _ => some targets

def possibleOrdinals (targets : SortedMap AllocationRole (Finset MonoId))
    (entry : AllocationRole × List Nat) : Bool :=
  entry.2.Nodup && (targets.get entry.1).any fun ids => entry.2.all fun ordinal =>
    ordinal < ids.card

def validAllocationPaths (nodes : List MonoNode) (edges : List DependencyEdge) : Bool :=
  match nodes.foldlM (recordPath nodes edges) .empty with
  | none => false
  | some ordinals =>
    match edges.foldlM (recordTargets nodes) .empty with
    | none => false
    | some targets => ordinals.entries.all (possibleOrdinals targets)

theorem allocationSiteMatches_of_eq {relation : MonoDependencyKind} {site : ObservationSite}
    {found : AllocationPathSite} (h : allocationPathSite relation site = some found) :
    allocationSiteMatches found site = true := by
  cases relation <;> cases site <;> cases h <;> first | rfl | exact decide_eq_true rfl

/-! ## What is accepted -/

variable {nodes : List MonoNode} {edges : List DependencyEdge} {node : MonoNode}
  {edge : DependencyEdge}

/-- The path of an allocation goes on from one node, along one edge. -/
def Placed (nodes : List MonoNode) (edges : List DependencyEdge) (node : MonoNode) : Prop :=
  ∀ allocation, node.key = .allocation allocation → ∃ front last parent,
    allocation.path = front ++ [last] ∧
      (nodes.filter fun candidate => isAllocationParent allocation front candidate.key) = [parent] ∧
        (edges.filter (isPathEdge parent.id node.id last)).length = 1

/-- The role and the ordinal of an allocation. -/
def placeOf (nodes : List MonoNode) (node : MonoNode) : Option (AllocationRole × Nat) :=
  match node.key with
  | .allocation allocation => do
    let last ← allocation.path.getLast?
    let parent ← nodes.find? fun candidate =>
      isAllocationParent allocation allocation.path.dropLast candidate.key
    return (allocationRole parent.id last.relation last.collection last.site, last.sameRoleOrdinal)
  | _ => none

def endsAtAllocation (nodes : List MonoNode) (edge : DependencyEdge) : Prop :=
  ∃ target allocation, edge.toNode = .mono target ∧
    nodes[target.index]?.map MonoNode.key = some (.allocation allocation)

/-- An edge to an allocation comes from a monomorphic node, and its sites fit its kind. -/
def TargetsFit (nodes : List MonoNode) (edge : DependencyEdge) : Prop :=
  endsAtAllocation nodes edge →
    ∃ relation collection source, edge.kind = .mono relation collection ∧
      edge.fromNode = .mono source ∧
        ∀ site ∈ edge.sites, (allocationPathSite relation site).isSome = true

theorem recordPath_eq (h : Placed nodes edges node)
    (ordinals : SortedMap AllocationRole (List Nat)) : recordPath nodes edges ordinals node =
      some ((placeOf nodes node).toList.foldl
        (SortedMap.addAt [] fun values ordinal => values ++ [ordinal]) ordinals) := by
  unfold recordPath placeOf
  cases hkey : node.key with
  | allocation allocation =>
    obtain ⟨front, last, parent, hpath, hparents, hedges⟩ := h allocation hkey
    have hlast : allocation.path.getLast? = some last := by rw [hpath, getLast?_concat]
    have hfront : allocation.path.dropLast = front := by rw [hpath, dropLast_concat]
    have hfind : nodes.find? (fun candidate => isAllocationParent allocation front candidate.key) =
        some parent := by rw [← head?_filter, hparents]; rfl
    simp only [hlast, hfront, hparents, hedges, hfind]
    rfl
  | «instance» | «static» | globalAsm | vTable => rfl

theorem placed_of_recordPath {ordinals ordinals' : SortedMap AllocationRole (List Nat)}
    (h : recordPath nodes edges ordinals node = some ordinals') : Placed nodes edges node := by
  intro allocation hkey
  rw [recordPath, hkey] at h
  dsimp only at h
  cases hlast : allocation.path.getLast? with
  | none =>
    rw [hlast] at h
    cases h
  | some last =>
    rw [hlast] at h
    dsimp only at h
    split at h
    · rename_i parent hparents
      refine ⟨_, last, parent, (dropLast_append_getLast? last hlast).symm, hparents, ?_⟩
      by_contra hne
      rw [if_pos hne] at h
      cases h
    · cases h

/-- The ordinals of each role. -/
def roleOrdinals (nodes : List MonoNode) : SortedMap AllocationRole (List Nat) :=
  .gather [] (fun values ordinal => values ++ [ordinal]) (nodes.filterMap (placeOf nodes))

theorem foldlM_recordPath_iff {ordinals : SortedMap AllocationRole (List Nat)} :
    nodes.foldlM (recordPath nodes edges) .empty = some ordinals ↔
      (∀ node ∈ nodes, Placed nodes edges node) ∧ ordinals = roleOrdinals nodes := by
  have hrun : (∀ node ∈ nodes, Placed nodes edges node) →
      nodes.foldlM (recordPath nodes edges) .empty = some (roleOrdinals nodes) := fun h => by
    rw [foldlM_eq_foldl_option fun node hnode ordinals => recordPath_eq (h node hnode) ordinals,
      ← foldl_flatMap, ← filterMap_eq_flatMap_toList]
    rfl
  constructor
  · intro h
    have hplaced : ∀ node ∈ nodes, Placed nodes edges node := fun node hnode => by
      obtain ⟨m, m', hstep⟩ := exists_step_of_foldlM h hnode
      exact placed_of_recordPath hstep
    exact ⟨hplaced, Option.some.inj (h.symm.trans (hrun hplaced))⟩
  · rintro ⟨hplaced, rfl⟩
    exact hrun hplaced

/-- The targets that an edge adds to roles. -/
def targetsOf (nodes : List MonoNode) (edge : DependencyEdge) : List (AllocationRole × MonoId) :=
  match edge.toNode with
  | .mono target =>
    match nodes[target.index]?.map MonoNode.key with
    | some (.allocation _) =>
      match edge.kind, edge.fromNode with
      | .mono relation collection, .mono source =>
        (edge.sites.filterMap (allocationPathSite relation)).map fun site =>
          (allocationRole source relation collection site, target)
      | _, _ => []
    | _ => []
  | _ => []

def roleTargets (nodes : List MonoNode) (edges : List DependencyEdge) :
    SortedMap AllocationRole (Finset MonoId) :=
  .gather ∅ (fun ids id => ids ∪ {id}) (edges.flatMap (targetsOf nodes))

theorem recordTargets_eq (h : TargetsFit nodes edge)
    (targets : SortedMap AllocationRole (Finset MonoId)) : recordTargets nodes targets edge =
      some ((targetsOf nodes edge).foldl (SortedMap.addAt ∅ fun ids id => ids ∪ {id}) targets) := by
  unfold recordTargets targetsOf
  split
  · rename_i target hto
    split
    · rename_i allocation hkey
      obtain ⟨relation, collection, source, hkind, hfrom, hsites⟩ :=
        h ⟨target, allocation, hto, hkey⟩
      rw [hkind, hfrom]
      dsimp only
      rw [foldl_map, foldl_filterMap]
      refine foldlM_eq_foldl_option (fun site hsite targets => ?_) targets
      obtain ⟨found, hfound⟩ := Option.isSome_iff_exists.mp (hsites site hsite)
      rw [hfound]
      rfl
    · rfl
  · rfl

theorem targetsFit_of_recordTargets {targets targets' : SortedMap AllocationRole (Finset MonoId)}
    (h : recordTargets nodes targets edge = some targets') : TargetsFit nodes edge := by
  rintro ⟨target, allocation, hto, hkey⟩
  rw [recordTargets, hto] at h
  dsimp only at h
  rw [hkey] at h
  dsimp only at h
  split at h
  · rename_i relation collection source hkind hfrom
    refine ⟨relation, collection, source, hkind, hfrom, fun site hsite => ?_⟩
    obtain ⟨m, m', hstep⟩ := exists_step_of_foldlM h hsite
    cases hfound : allocationPathSite relation site with
    | none =>
      rw [hfound] at hstep
      cases hstep
    | some found => rfl
  · cases h

theorem foldlM_recordTargets_iff {targets : SortedMap AllocationRole (Finset MonoId)} :
    edges.foldlM (recordTargets nodes) .empty = some targets ↔
      (∀ edge ∈ edges, TargetsFit nodes edge) ∧ targets = roleTargets nodes edges := by
  have hrun : (∀ edge ∈ edges, TargetsFit nodes edge) →
      edges.foldlM (recordTargets nodes) .empty = some (roleTargets nodes edges) := fun h => by
    rw [foldlM_eq_foldl_option fun edge hedge targets => recordTargets_eq (h edge hedge) targets,
      ← foldl_flatMap]
    rfl
  constructor
  · intro h
    have hfit : ∀ edge ∈ edges, TargetsFit nodes edge := fun edge hedge => by
      obtain ⟨m, m', hstep⟩ := exists_step_of_foldlM h hedge
      exact targetsFit_of_recordTargets hstep
    exact ⟨hfit, Option.some.inj (h.symm.trans (hrun hfit))⟩
  · rintro ⟨hfit, rfl⟩
    exact hrun hfit

theorem validAllocationPaths_iff : validAllocationPaths nodes edges = true ↔
    (∀ node ∈ nodes, Placed nodes edges node) ∧ (∀ edge ∈ edges, TargetsFit nodes edge) ∧
      ∀ entry ∈ (roleOrdinals nodes).entries,
        possibleOrdinals (roleTargets nodes edges) entry = true := by
  unfold validAllocationPaths
  cases hordinals : nodes.foldlM (recordPath nodes edges) .empty with
  | none =>
    refine ⟨fun h => absurd h Bool.false_ne_true, fun h => ?_⟩
    rw [foldlM_recordPath_iff.mpr ⟨h.1, rfl⟩] at hordinals
    cases hordinals
  | some ordinals =>
    obtain ⟨hplaced, rfl⟩ := foldlM_recordPath_iff.mp hordinals
    dsimp only
    cases htargets : edges.foldlM (recordTargets nodes) .empty with
    | none =>
      refine ⟨fun h => absurd h Bool.false_ne_true, fun h => ?_⟩
      rw [foldlM_recordTargets_iff.mpr ⟨h.2.1, rfl⟩] at htargets
      cases htargets
    | some targets =>
      obtain ⟨hfit, rfl⟩ := foldlM_recordTargets_iff.mp htargets
      dsimp only
      rw [all_eq_true]
      exact ⟨fun h => ⟨hplaced, hfit, h⟩, fun h => h.2.2⟩

/-! ## Ordinals -/

variable {role : AllocationRole} {ordinal : Nat} {id : MonoId}

/-- The ordinals of nodes that are told apart by their keys, with as many targets as they need. -/
theorem placeOf_eq_some : placeOf nodes node = some (role, ordinal) ↔
    ∃ allocation front last parent, node.key = .allocation allocation ∧
      allocation.path = front ++ [last] ∧
      nodes.find? (fun candidate => isAllocationParent allocation front candidate.key) =
        some parent ∧
      role = allocationRole parent.id last.relation last.collection last.site ∧
      ordinal = last.sameRoleOrdinal := by
  unfold placeOf
  split
  · rename_i allocation hkey
    constructor
    · intro h
      obtain ⟨last, hlast, h⟩ := Option.bind_eq_some_iff.mp h
      obtain ⟨parent, hparent, h⟩ := Option.bind_eq_some_iff.mp h
      obtain ⟨rfl, rfl⟩ := Prod.mk.inj (Option.some.inj h)
      exact ⟨allocation, _, last, parent, hkey, (dropLast_append_getLast? last hlast).symm,
        hparent, rfl, rfl⟩
    · rintro ⟨allocation', front, last, parent, hkey', hpath, hparent, rfl, rfl⟩
      obtain rfl : allocation = allocation' := MonoKey.allocation.inj (hkey.symm.trans hkey')
      rw [hpath, getLast?_concat, dropLast_concat, hparent]
      rfl
  · rename_i hkey
    refine ⟨fun h => absurd h.symm (Option.some_ne_none _), ?_⟩
    rintro ⟨allocation, -, -, -, hkey', -⟩
    exact absurd hkey' (hkey allocation)

theorem keyMatchesAllocationRoot_inj {key : MonoKey} {root root' : AllocationRootKey}
    (h : keyMatchesAllocationRoot key root = true)
    (h' : keyMatchesAllocationRoot key root' = true) :
    root = root' := by
  cases key <;> cases root <;> simp only [keyMatchesAllocationRoot, Bool.and_eq_true,
    decide_eq_true_eq, Bool.false_eq_true] at h <;> cases root' <;>
    simp only [keyMatchesAllocationRoot, Bool.and_eq_true, decide_eq_true_eq,
      Bool.false_eq_true] at h' <;> simp_all

/-- The parent and the last part of a path tell the key. -/
theorem isAllocationParent_inj {allocation allocation' : AllocationKey}
    {front front' : List AllocationPathPart} {last : AllocationPathPart} {key : MonoKey}
    (hpath : allocation.path = front ++ [last]) (hpath' : allocation'.path = front' ++ [last])
    (h : isAllocationParent allocation front key = true)
    (h' : isAllocationParent allocation' front' key = true) : allocation = allocation' := by
  suffices hboth : allocation.root = allocation'.root ∧ front = front' by
    obtain ⟨root, path⟩ := allocation
    obtain ⟨root', path'⟩ := allocation'
    obtain ⟨rfl, rfl⟩ := hboth
    obtain rfl := hpath
    obtain rfl := hpath'
    rfl
  cases key with
  | allocation parent =>
    simp only [isAllocationParent, Bool.and_eq_true, decide_eq_true_eq] at h h'
    exact ⟨h.2.1.symm.trans h'.2.1, h.2.2.symm.trans h'.2.2⟩
  | «instance» | «static» | globalAsm | vTable =>
    simp only [isAllocationParent, Bool.and_eq_true, List.isEmpty_iff] at h h'
    exact ⟨keyMatchesAllocationRoot_inj h.2 h'.2, h.1.trans h'.1.symm⟩

/-- A key goes on from one other key only. -/
theorem isAllocationParent_unique {allocation : AllocationKey} {front : List AllocationPathPart}
    {key key' : MonoKey} (h : isAllocationParent allocation front key = true)
    (h' : isAllocationParent allocation front key' = true) : key = key' := by
  obtain ⟨root, path⟩ := allocation
  cases key <;> cases key' <;>
    simp only [isAllocationParent, Bool.and_eq_true, Bool.not_eq_true', decide_eq_true_eq] at h h'
  case allocation.allocation parent parent' =>
    cases parent
    cases parent'
    rw [MonoKey.allocation.injEq, AllocationKey.mk.injEq]
    exact ⟨h.2.1.trans h'.2.1.symm, h.2.2.trans h'.2.2.symm⟩
  case allocation.instance | allocation.static | allocation.globalAsm | allocation.vTable =>
    exact absurd (h.1.symm.trans h'.1) Bool.false_ne_true
  case instance.allocation | static.allocation | globalAsm.allocation | vTable.allocation =>
    exact absurd (h'.1.symm.trans h.1) Bool.false_ne_true
  all_goals
    cases root <;> simp_all [keyMatchesAllocationRoot]

variable {node' : MonoNode}

/-- No two nodes have the same role and the same ordinal. -/
theorem placeOf_inj (hid : ∀ a ∈ nodes, ∀ b ∈ nodes, a.id = b.id → a = b)
    (h : placeOf nodes node = some (role, ordinal))
    (h' : placeOf nodes node' = some (role, ordinal)) : node.key = node'.key := by
  obtain ⟨allocation, front, last, parent, hkey, hpath, hparent, hrole, hordinal⟩ :=
    placeOf_eq_some.mp h
  obtain ⟨allocation', front', last', parent', hkey', hpath', hparent', hrole', hordinal'⟩ :=
    placeOf_eq_some.mp h'
  simp only [hrole, allocationRole, EmbeddingLike.apply_eq_iff_eq, Prod.mk.injEq] at hrole'
  obtain ⟨hparents, hrelation, hcollection, hsite⟩ := hrole'
  have hlast : last = last' := by
    cases last
    cases last'
    simp only at hrelation hcollection hsite hordinal hordinal'
    rw [hrelation, hcollection, hsite, ← hordinal, ← hordinal']
  have heq : parent = parent' := hid _ (mem_of_find?_eq_some hparent) _
    (mem_of_find?_eq_some hparent') hparents
  have hfits := find?_some hparent
  have hfits' := find?_some hparent'
  rw [← heq] at hfits'
  rw [hkey, hkey', isAllocationParent_inj hpath (hlast ▸ hpath') hfits hfits']

theorem mem_targetsOf : (role, id) ∈ targetsOf nodes edge ↔ edge.toNode = .mono id ∧
    (∃ allocation, nodes[id.index]?.map MonoNode.key = some (.allocation allocation)) ∧
    ∃ relation collection source, edge.kind = .mono relation collection ∧
      edge.fromNode = .mono source ∧ ∃ site ∈ edge.sites, ∃ found,
        allocationPathSite relation site = some found ∧
          role = allocationRole source relation collection found := by
  unfold targetsOf
  split
  · rename_i target hto
    split
    · rename_i allocation hkey
      split
      · rename_i relation collection source hkind hfrom
        rw [mem_map, hto]
        constructor
        · rintro ⟨found, hfound, heq⟩
          obtain ⟨rfl, rfl⟩ := Prod.mk.inj heq
          obtain ⟨site, hsite, hclass⟩ := mem_filterMap.mp hfound
          exact ⟨rfl, ⟨allocation, hkey⟩, relation, collection, source, hkind, hfrom, site, hsite,
            found, hclass, rfl⟩
        · rintro ⟨hid, -, relation', collection', source', hkind', hfrom', site, hsite, found,
            hclass, rfl⟩
          cases hkind.symm.trans hkind'
          cases hfrom.symm.trans hfrom'
          cases hid
          exact ⟨found, mem_filterMap.mpr ⟨site, hsite, hclass⟩, rfl⟩
      · rename_i hshape
        refine ⟨fun h => absurd h not_mem_nil, ?_⟩
        rintro ⟨-, -, relation, collection, source, hkind, hfrom, -⟩
        exact absurd hfrom (hshape relation collection source hkind)
    · rename_i hkey
      refine ⟨fun h => absurd h not_mem_nil, ?_⟩
      rintro ⟨hid, ⟨allocation, hkey'⟩, -⟩
      cases hto.symm.trans hid
      exact absurd hkey' (hkey allocation)
  · rename_i hto
    refine ⟨fun h => absurd h not_mem_nil, ?_⟩
    rintro ⟨hid, -⟩
    exact absurd hid (hto id)

/-- The targets of a role. -/
theorem get_roleTargets {ids : Finset MonoId} (h : (roleTargets nodes edges).get role = some ids) :
    id ∈ ids ↔ ∃ edge ∈ edges, (role, id) ∈ targetsOf nodes edge := by
  obtain ⟨-, rfl⟩ := SortedMap.get_gather_eq_some.mp h
  have hfold : ∀ (l : List MonoId) (start : Finset MonoId),
      id ∈ l.foldl (fun ids id => ids ∪ {id}) start ↔ id ∈ start ∨ id ∈ l := by
    intro l
    induction l with
    | nil => simp
    | cons first l ih =>
      intro start
      rw [foldl_cons, ih, Finset.mem_union, Finset.mem_singleton, mem_cons, or_assoc]
  rw [hfold, mem_valuesAt, mem_flatMap]
  exact or_iff_right (Finset.notMem_empty id)

theorem mem_roleOrdinals {values : List Nat} (h : (role, values) ∈ (roleOrdinals nodes).entries) :
    values = valuesAt (nodes.filterMap (placeOf nodes)) role := by
  obtain ⟨-, rfl⟩ := SortedMap.mem_entries_gather.mp h
  have hfold : ∀ (l start : List Nat),
      l.foldl (fun values ordinal => values ++ [ordinal]) start = start ++ l := by
    intro l
    induction l with
    | nil => simp
    | cons first l ih =>
      intro start
      rw [foldl_cons, ih, append_assoc, singleton_append]
  rw [hfold, nil_append]

/-- Ordinals are possible where the nodes are told apart by their keys and each ordinal is below the
number of targets of its role. -/
theorem possibleOrdinals_of (hid : ∀ a ∈ nodes, ∀ b ∈ nodes, a.id = b.id → a = b)
    (hkeys : (nodes.map MonoNode.key).Nodup)
    (hbelow : ∀ node ∈ nodes, ∀ role ordinal, placeOf nodes node = some (role, ordinal) →
      ∃ ids, (roleTargets nodes edges).get role = some ids ∧ ordinal < ids.card) :
    ∀ entry ∈ (roleOrdinals nodes).entries,
      possibleOrdinals (roleTargets nodes edges) entry = true := by
  rintro ⟨role, values⟩ hentry
  obtain rfl := mem_roleOrdinals hentry
  obtain ⟨⟨ordinal, hordinal⟩, -⟩ := SortedMap.mem_entries_gather.mp hentry
  have hnode : ∀ ordinal, ordinal ∈ valuesAt (nodes.filterMap (placeOf nodes)) role →
      ∃ node ∈ nodes, placeOf nodes node = some (role, ordinal) := fun ordinal h =>
    mem_filterMap.mp (mem_valuesAt.mp h)
  obtain ⟨node, hnode₀, hplace⟩ := hnode ordinal (mem_valuesAt.mpr hordinal)
  obtain ⟨ids, hids, -⟩ := hbelow node hnode₀ role ordinal hplace
  rw [possibleOrdinals, Bool.and_eq_true, decide_eq_true_eq]
  constructor
  · have hpushes : (nodes.filterMap (placeOf nodes)).Nodup := by
      refine List.Pairwise.filterMap (placeOf nodes) (fun a b hne push hpush push' hpush' heq => ?_)
        (pairwise_map.mp hkeys)
      subst heq
      exact hne (placeOf_inj hid hpush hpush')
    exact nodup_valuesAt hpushes role
  · dsimp only
    rw [hids, Option.any_some, all_eq_true]
    intro ordinal hordinal
    obtain ⟨node, hnode₀, hplace⟩ := hnode ordinal hordinal
    obtain ⟨ids', hids', hlt⟩ := hbelow node hnode₀ role ordinal hplace
    obtain rfl := Option.some.inj (hids.symm.trans hids')
    exact decide_eq_true hlt

end ItemDependencies.DependencyGraph
