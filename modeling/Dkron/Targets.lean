import Dkron.Dispatching
import Dkron.Servers
import Dkron.Lib.InPlace

/-!
# Target nodes

`getTargetNodes` of `dkron/agent.go` selects the members of the cluster that run a job. The tags of
the job say which members can run it and, after a colon, how many of them do (`dkron/tags.go`).
Both the filter and the selection work in the array of the members: what is not wanted, or what is
chosen, trades places with the end of the array.

**Theorem (`getTargetNodes_selects`).** What is selected are members at different places of the
list, alive, of the region and with the tags, as many as the lowest cardinality allows.
-/

namespace Dkron

/-- `int(^uint(0) >> 1)`. -/
def maxInt : Int := 2 ^ 63 - 1

/-- A slice: its length is an `int`. -/
structure Slice (α : Type) where
  items : List α
  length_le : (items.length : Int) ≤ maxInt

/-- A selector with indexes in range. It is a function for each of its calls, which may differ. -/
structure Selector (α : Type) where
  select : ℕ → List α → ℕ
  lt_length : ∀ call nodes, nodes ≠ [] → select call nodes < nodes.length

/-! ## Tags -/

/-- `strings.Split(v, ":")`. -/
def tagParts (v : String) : List String := (v.toList.splitOn ':').map String.ofList

/-- The cardinality after a tag, given those seen before it. -/
def lowerCardinality (cardinality : Int) (v : String) : Int :=
  match tagParts v with
  | [_, part] =>
    -- a malformed cardinality counts as zero
    let tagCard := (parseInt part).getD 0
    if tagCard < cardinality then tagCard else cardinality
  | _ => cardinality

/-- `cleanTags`: the tags without their cardinalities, and the lowest cardinality. -/
def cleanTags (tags : StrMap) : StrMap × Int :=
  (tags.map fun p => (p.1, (tagParts p.2).headD ""),
    tags.foldl (fun cardinality p => lowerCardinality cardinality p.2) maxInt)

/-- `nodeMatchesTags`. -/
def nodeMatchesTags (node : Serf.Member) (tags : StrMap) : Bool :=
  tags.all fun p => node.tags.lookup p.1 == some p.2

/-! ## Nodes -/

section

variable {α : Type}

/-- The loop of `filterArray`, with the places below `i` still to be tested. None if an index is
out of range. -/
def filterArrayFrom (filterFunc : α → Bool) : ℕ → List α → Option (List α)
  | 0, arr => some arr
  | i + 1, arr =>
    match arr[i]? with
    | none => none
    | some node =>
      if filterFunc node then filterArrayFrom filterFunc i arr
      else (InPlace.removeSwap arr i).bind (filterArrayFrom filterFunc i)

/-- `filterArray`. -/
def filterArray (arr : List α) (filterFunc : α → Bool) : Option (List α) :=
  filterArrayFrom filterFunc arr.length arr

/-- The loop of `selectNodes`. The chosen node goes to the end of those that are left. -/
def selectLoop (selectFunc : Selector α) : (cardinality numNodes : ℕ) → List α → Option (List α)
  | 0, numNodes, nodes => some (nodes.drop numNodes)
  | _ + 1, 0, _ => none
  | cardinality + 1, numNodes + 1, nodes =>
    let chosenIndex := selectFunc.select cardinality (nodes.take (numNodes + 1))
    (InPlace.swap nodes numNodes chosenIndex).bind (selectLoop selectFunc cardinality numNodes)

/-- `selectNodes`. -/
def selectNodes (nodes : List α) (cardinality : Int) (selectFunc : Selector α) :
    Option (List α) :=
  if nodes.length ≤ cardinality then some nodes
  else selectLoop selectFunc cardinality.toNat nodes.length nodes

end

/-- The filter of `getQualifyingNodes`. -/
def qualifies (region : String) (bareTags : StrMap) (node : Serf.Member) : Bool :=
  node.status = .alive && node.tags.at "region" == region && nodeMatchesTags node bareTags

/-- `getQualifyingNodes`. -/
def getQualifyingNodes (region : String) (nodes : List Serf.Member) (bareTags : StrMap) :
    Option (List Serf.Member) :=
  filterArray nodes (qualifies region bareTags)

/-- `getTargetNodes`. None if an index is out of range. -/
def getTargetNodes (region : String) (members : Slice Serf.Member) (tags : StrMap)
    (selectFunc : Selector Serf.Member) : Option (List Serf.Member) :=
  let (bareTags, cardinality) := cleanTags tags
  (getQualifyingNodes region members.items bareTags).bind fun nodes =>
    selectNodes nodes cardinality selectFunc

/-! ## What the tags ask for -/

/-- What stands before the first colon of a tag. -/
def valuePart (v : String) : String := String.ofList (v.toList.takeWhile (· ≠ ':'))

/-- The cardinality of a tag with exactly one colon; a malformed one is zero. -/
def cardinalityPart (v : String) : Option Int :=
  if v.toList.count ':' = 1 then
    some ((parseInt (String.ofList ((v.toList.dropWhile (· ≠ ':')).drop 1))).getD 0)
  else none

/-- The lowest cardinality that the tags ask for, if one of them asks for any. -/
def lowestCardinality (tags : StrMap) : Option Int :=
  (tags.filterMap fun p => cardinalityPart p.2).min?

/-- The member is alive, in the region, and has the values of the tags. -/
def Qualifies (region : String) (tags : StrMap) (node : Serf.Member) : Prop :=
  node.status = .alive ∧ node.tags.at "region" = region ∧
    ∀ p ∈ tags, node.tags.lookup p.1 = some (valuePart p.2)

instance (region : String) (tags : StrMap) : DecidablePred (Qualifies region tags) :=
  fun node => inferInstanceAs (Decidable (node.status = .alive ∧ node.tags.at "region" = region ∧
    ∀ p ∈ tags, node.tags.lookup p.1 = some (valuePart p.2)))

theorem splitOn_colon (cs : List Char) :
    cs.splitOn ':' = cs.takeWhile (· ≠ ':') ::
      if ':' ∈ cs then ((cs.dropWhile (· ≠ ':')).drop 1).splitOn ':' else [] := by
  induction cs with
  | nil => rfl
  | cons c cs ih =>
    rw [List.splitOn_cons_eq_if_modifyHead]
    by_cases hc : c = ':'
    · simp [hc]
    · rw [if_neg (by simpa using hc), ih, List.modifyHead_cons]
      simp [hc, Ne.symm hc]

theorem headD_tagParts (v : String) : (tagParts v).headD "" = valuePart v := by
  rw [tagParts, splitOn_colon, List.map_cons, List.headD_cons, valuePart]

theorem splitOn_of_notMem {cs : List Char} (h : ':' ∉ cs) : cs.splitOn ':' = [cs] := by
  rw [splitOn_colon, if_neg h, List.takeWhile_eq_self_iff.2]
  intro c hc
  exact decide_eq_true fun heq => h (heq ▸ hc)

theorem count_colon {cs : List Char} (h : ':' ∈ cs) :
    cs.count ':' = ((cs.dropWhile (· ≠ ':')).drop 1).count ':' + 1 := by
  induction cs with
  | nil => cases h
  | cons c cs ih =>
    by_cases hc : c = ':'
    · simp [hc]
    · have hmem : ':' ∈ cs := (List.mem_cons.1 h).resolve_left (Ne.symm hc)
      rw [List.count_cons_of_ne hc, ih hmem, List.dropWhile_cons_of_pos (by simpa using hc)]

theorem lowerCardinality_eq (cardinality : Int) (v : String) :
    lowerCardinality cardinality v =
      match cardinalityPart v with
      | some c => min cardinality c
      | none => cardinality := by
  have hmin : ∀ c : Int, (if c < cardinality then c else cardinality) = min cardinality c := by
    intro c
    omega
  by_cases hmem : ':' ∈ v.toList
  · have hcount := count_colon hmem
    rw [lowerCardinality, tagParts, splitOn_colon, if_pos hmem, cardinalityPart]
    generalize (v.toList.dropWhile (· ≠ ':')).drop 1 = rest at hcount ⊢
    by_cases hrest : ':' ∈ rest
    · have hpos : 0 < rest.count ':' := List.count_pos_iff.2 hrest
      have hne : ((rest.dropWhile (· ≠ ':')).drop 1).splitOn ':' ≠ [] := List.splitOn_ne_nil _ _
      rw [splitOn_colon rest, if_pos hrest, if_neg (by omega)]
      cases hparts : ((rest.dropWhile (· ≠ ':')).drop 1).splitOn ':' with
      | nil => exact absurd hparts hne
      | cons part parts => rfl
    · rw [splitOn_of_notMem hrest, if_pos (by rw [hcount, List.count_eq_zero.2 hrest])]
      exact hmin _
  · have hcount : v.toList.count ':' ≠ 1 := by
      rw [List.count_eq_zero.2 hmem]
      exact Nat.zero_ne_one
    rw [lowerCardinality, tagParts, splitOn_of_notMem hmem, cardinalityPart, if_neg hcount]
    rfl

theorem parseInt_le {s : String} {n : Int} (h : parseInt s = some n) : n ≤ maxInt := by
  simp only [parseInt] at h
  split_ifs at h with hds hneg hrange hrange
  · have hn := Option.some.inj h
    rw [maxInt]
    omega
  · have hn := Option.some.inj h
    rw [maxInt]
    omega

theorem cardinalityPart_le {v : String} {c : Int} (h : cardinalityPart v = some c) :
    c ≤ maxInt := by
  rw [cardinalityPart] at h
  split_ifs at h
  rw [← Option.some.inj h]
  cases hparse : parseInt (String.ofList ((v.toList.dropWhile (· ≠ ':')).drop 1)) with
  | none => decide
  | some n => exact parseInt_le hparse

/-- `cleanTags` finds the lowest cardinality. -/
theorem cleanTags_cardinality (tags : StrMap) :
    (cleanTags tags).2 = (lowestCardinality tags).getD maxInt := by
  have hfold : ∀ (tags : StrMap) (c : Int),
      tags.foldl (fun cardinality p => lowerCardinality cardinality p.2) c =
        (tags.filterMap fun p => cardinalityPart p.2).foldl min c := by
    intro tags
    induction tags with
    | nil => exact fun c => rfl
    | cons p tags ih =>
      intro c
      rw [List.foldl_cons, ih, lowerCardinality_eq, List.filterMap_cons]
      cases cardinalityPart p.2 with
      | none => rfl
      | some n => rfl
  have hle : ∀ c ∈ tags.filterMap fun p => cardinalityPart p.2, c ≤ maxInt := by
    intro c hc
    obtain ⟨p, _, hp⟩ := List.mem_filterMap.1 hc
    exact cardinalityPart_le hp
  rw [cleanTags, lowestCardinality, hfold]
  cases hcards : tags.filterMap fun p => cardinalityPart p.2 with
  | nil => rfl
  | cons c cs =>
    have hc : min maxInt c = c := min_eq_right (hle c (by rw [hcards]; exact List.mem_cons_self))
    rw [List.min?_cons', List.foldl_cons, hc, Option.getD_some]

theorem nodeMatchesTags_cleanTags {node : Serf.Member} {tags : StrMap} :
    nodeMatchesTags node (cleanTags tags).1 ↔
      ∀ p ∈ tags, node.tags.lookup p.1 = some (valuePart p.2) := by
  simp only [nodeMatchesTags, cleanTags, headD_tagParts, List.all_map]
  simp

theorem qualifies_cleanTags {region : String} {tags : StrMap} {node : Serf.Member} :
    qualifies region (cleanTags tags).1 node ↔ Qualifies region tags node := by
  rw [qualifies, Qualifies, ← nodeMatchesTags_cleanTags]
  simp [and_assoc]

/-! ## The loops -/

section

variable {α : Type}

/-- The places from `i` on were tested: what stands there satisfies the filter. -/
theorem exists_filterArrayFrom {filterFunc : α → Bool} {i : ℕ} {tested untested : List α}
    (hlen : untested.length = i) (h : ∀ node ∈ tested, filterFunc node) :
    ∃ nodes, filterArrayFrom filterFunc i (untested ++ tested) = some nodes ∧
      nodes.Perm ((untested ++ tested).filter filterFunc) := by
  induction i generalizing tested untested with
  | zero =>
    rw [List.length_eq_zero_iff.1 hlen, List.nil_append, List.filter_eq_self.2 h]
    exact ⟨tested, rfl, List.Perm.refl tested⟩
  | succ i ih =>
    obtain ⟨init, node, rfl⟩ : ∃ init node, untested = init ++ [node] := by
      rcases List.eq_nil_or_concat' untested with rfl | h
      · cases hlen
      · exact h
    have hinit : init.length = i := by simpa using hlen
    have hget : (init ++ [node] ++ tested)[i]? = some node := by
      rw [List.append_assoc, ← hinit]
      simp
    rw [filterArrayFrom, hget]
    by_cases hnode : filterFunc node
    · have htested : ∀ n ∈ node :: tested, filterFunc n := List.forall_mem_cons.2 ⟨hnode, h⟩
      obtain ⟨nodes, hnodes, hperm⟩ := ih hinit htested
      rw [List.append_assoc, List.singleton_append]
      exact ⟨nodes, by simpa [hnode] using hnodes, hperm⟩
    · obtain ⟨rest, hrest, hrestPerm⟩ := InPlace.exists_removeSwap init node tested
      have htested : ∀ n ∈ rest, filterFunc n := fun n hn => h n (hrestPerm.mem_iff.1 hn)
      obtain ⟨nodes, hnodes, hperm⟩ := ih hinit htested
      refine ⟨nodes, ?_, ?_⟩
      · rw [hinit] at hrest
        rw [List.append_assoc, List.singleton_append, hrest]
        simpa [hnode] using hnodes
      · apply hperm.trans
        rw [List.filter_append, List.filter_append, List.filter_append]
        simpa [hnode] using (hrestPerm.filter filterFunc).append_left (init.filter filterFunc)

theorem exists_filterArray (arr : List α) (filterFunc : α → Bool) :
    ∃ nodes, filterArray arr filterFunc = some nodes ∧ nodes.Perm (arr.filter filterFunc) := by
  have h : ∃ nodes, filterArrayFrom filterFunc arr.length (arr ++ []) = some nodes ∧
      nodes.Perm ((arr ++ []).filter filterFunc) := exists_filterArrayFrom rfl (by simp)
  rwa [List.append_nil] at h

/-- The nodes that are left stand before place `numNodes`, and the chosen ones after it. -/
theorem exists_selectLoop (selectFunc : Selector α) {cardinality numNodes : ℕ} {nodes : List α}
    (hcard : cardinality ≤ numNodes) (hnum : numNodes ≤ nodes.length) :
    ∃ chosen, selectLoop selectFunc cardinality numNodes nodes = some chosen ∧
      chosen.Subperm nodes ∧ chosen.length = nodes.length - numNodes + cardinality := by
  induction cardinality generalizing numNodes nodes with
  | zero => exact ⟨nodes.drop numNodes, rfl, (List.drop_sublist _ _).subperm, List.length_drop⟩
  | succ cardinality ih =>
    cases numNodes with
    | zero => omega
    | succ numNodes =>
      have hne : nodes.take (numNodes + 1) ≠ [] := by
        intro hnil
        have := congrArg List.length hnil
        simp only [List.length_take, List.length_nil] at this
        omega
      have hidx := selectFunc.lt_length cardinality _ hne
      obtain ⟨nodes', hswap, hperm⟩ := InPlace.exists_swap (l := nodes) (i := numNodes)
        (j := selectFunc.select cardinality (nodes.take (numNodes + 1))) (by omega)
        (hidx.trans_le (List.length_take_le' _ _))
      have hnum' : numNodes ≤ nodes'.length := by
        rw [hperm.length_eq]
        omega
      obtain ⟨chosen, hchosen, hsub, hlength⟩ := ih (Nat.le_of_succ_le_succ hcard) hnum'
      refine ⟨chosen, ?_, hsub.trans hperm.subperm, ?_⟩
      · rw [selectLoop, hswap, Option.bind_some]
        exact hchosen
      · rw [hlength, hperm.length_eq]
        omega

theorem exists_selectNodes (nodes : List α) (cardinality : Int) (selectFunc : Selector α) :
    ∃ chosen, selectNodes nodes cardinality selectFunc = some chosen ∧ chosen.Subperm nodes ∧
      (chosen.length : Int) = min ↑nodes.length (max 0 cardinality) := by
  rw [selectNodes]
  split_ifs with hall
  · exact ⟨nodes, rfl, List.Subperm.refl nodes, by omega⟩
  · have hcard : cardinality.toNat ≤ nodes.length := by omega
    obtain ⟨chosen, hchosen, hsub, hlength⟩ := exists_selectLoop selectFunc hcard le_rfl
    exact ⟨chosen, hchosen, hsub, by omega⟩

end

/-! ## The selection -/

theorem getTargetNodes_eq (region : String) (members : Slice Serf.Member) (tags : StrMap)
    (selectFunc : Selector Serf.Member) :
    getTargetNodes region members tags selectFunc =
      (filterArray members.items (qualifies region (cleanTags tags).1)).bind fun nodes =>
        selectNodes nodes (cleanTags tags).2 selectFunc := rfl

/-- The order of the tags plays no part. -/
theorem getTargetNodes_congr (region : String) (members : Slice Serf.Member) {tags tags' : StrMap}
    (selectFunc : Selector Serf.Member) (h : tags.Perm tags') :
    getTargetNodes region members tags selectFunc =
      getTargetNodes region members tags' selectFunc := by
  have hlower : ∀ (c : Int) (p q : String × String),
      lowerCardinality (lowerCardinality c p.2) q.2 =
        lowerCardinality (lowerCardinality c q.2) p.2 := by
    intro c p q
    simp only [lowerCardinality_eq]
    cases cardinalityPart p.2 <;> cases cardinalityPart q.2 <;> simp [min_right_comm]
  have hcard : (cleanTags tags).2 = (cleanTags tags').2 :=
    h.foldl_eq' (fun p _ q _ c => hlower c p q) maxInt
  have hqual : qualifies region (cleanTags tags).1 = qualifies region (cleanTags tags').1 := by
    funext node
    rw [Bool.eq_iff_iff, qualifies_cleanTags, qualifies_cleanTags]
    simp only [Qualifies, h.mem_iff]
  rw [getTargetNodes_eq, getTargetNodes_eq, hcard, hqual]

/-- What is selected are some of the members that qualify. -/
theorem exists_getTargetNodes (region : String) (members : Slice Serf.Member) (tags : StrMap)
    (selectFunc : Selector Serf.Member) :
    ∃ nodes, getTargetNodes region members tags selectFunc = some nodes ∧
      nodes.Subperm (members.items.filter fun node => Qualifies region tags node) ∧
      (nodes.length : Int) =
        min ↑(members.items.countP fun node => Qualifies region tags node)
          (max 0 (cleanTags tags).2) := by
  obtain ⟨qualifiers, hqualifiers, hperm⟩ :=
    exists_filterArray members.items (qualifies region (cleanTags tags).1)
  obtain ⟨nodes, hnodes, hsub, hlength⟩ :=
    exists_selectNodes qualifiers (cleanTags tags).2 selectFunc
  have hfilter : members.items.filter (qualifies region (cleanTags tags).1) =
      members.items.filter fun node => Qualifies region tags node :=
    List.filter_congr fun node _ => by
      rw [Bool.eq_iff_iff, qualifies_cleanTags, decide_eq_true_eq]
  rw [hfilter] at hperm
  refine ⟨nodes, ?_, hsub.trans hperm.subperm, ?_⟩
  · rw [getTargetNodes_eq, hqualifiers]
    exact hnodes
  · rw [hlength, hperm.length_eq, List.countP_eq_length_filter]

/-- Members of different names are selected under different names, as a run takes it for granted
of its nodes. -/
theorem nodup_names_getTargetNodes {region : String} {members : Slice Serf.Member} {tags : StrMap}
    {selectFunc : Selector Serf.Member} {nodes : List Serf.Member}
    (hnames : (members.items.map Serf.Member.name).Nodup)
    (h : getTargetNodes region members tags selectFunc = some nodes) :
    (nodes.map Serf.Member.name).Nodup := by
  obtain ⟨nodes', hnodes', hsub, -⟩ := exists_getTargetNodes region members tags selectFunc
  obtain rfl : nodes' = nodes := Option.some.inj (hnodes'.symm.trans h)
  obtain ⟨kept, hkept, hsublist⟩ := hsub.trans List.filter_sublist.subperm
  exact (hkept.map Serf.Member.name).nodup_iff.1 (hnames.sublist (hsublist.map Serf.Member.name))

/-- The nodes of a run are those that `getTargetNodes` selects. -/
def Cluster.ofMembers (region : String) (members : Slice Serf.Member)
    (hnames : (members.items.map Serf.Member.name).Nodup) (tags : StrMap)
    (selectFunc : Selector Serf.Member) : Cluster where
  members := members.items.map fun node => ⟨node.name, node.status = .alive⟩
  targetNodes := ((getTargetNodes region members tags selectFunc).getD []).map Serf.Member.name
  nodup := by
    cases h : getTargetNodes region members tags selectFunc with
    | none => exact List.nodup_nil
    | some nodes => exact nodup_names_getTargetNodes hnames h

/-- **Target node selection.** No index is out of range; the nodes that are selected stand at
different places in the list of the members, are alive, of the region and with the values of the
tags, and are as many as there are such members, or as the lowest cardinality of a tag, if that is
lower (none if it is negative). The order of the tags plays no part. -/
theorem getTargetNodes_selects (region : String) (members : Slice Serf.Member) (tags : StrMap)
    (selectFunc : Selector Serf.Member) :
    (∃ nodes, getTargetNodes region members tags selectFunc = some nodes ∧
      (∃ places : List (Fin members.items.length), places.Nodup ∧
        nodes = places.map members.items.get) ∧
      (∀ node ∈ nodes, Qualifies region tags node) ∧
      (nodes.length : Int) =
        match lowestCardinality tags with
        | none => ↑(members.items.countP fun node => Qualifies region tags node)
        | some c => min ↑(members.items.countP fun node => Qualifies region tags node) (max 0 c)) ∧
    ∀ tags', tags'.Perm tags →
      getTargetNodes region members tags' selectFunc =
        getTargetNodes region members tags selectFunc := by
  refine ⟨?_, fun tags' h => getTargetNodes_congr region members selectFunc h⟩
  obtain ⟨nodes, hnodes, hsub, hlength⟩ := exists_getTargetNodes region members tags selectFunc
  refine ⟨nodes, hnodes, ?_, ?_, ?_⟩
  · exact InPlace.exists_positions (hsub.trans List.filter_sublist.subperm)
  · intro node hnode
    exact of_decide_eq_true (List.mem_filter.1 (hsub.subset hnode)).2
  · have hcount := List.countP_le_length (p := fun node => decide (Qualifies region tags node))
      (l := members.items)
    have hslice := members.length_le
    rw [hlength, cleanTags_cardinality]
    cases lowestCardinality tags with
    | none =>
      rw [Option.getD_none, max_eq_right (by decide), min_eq_left (by omega)]
    | some c => rfl

end Dkron
