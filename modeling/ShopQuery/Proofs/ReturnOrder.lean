-- What a search returns and counts, from the clauses of its body. Every variable that they bind
-- is returned, in an order of its own: labels by their rank, and the variables of steps, which
-- may repeat, by their bytes. So it does not matter in which order the clauses came in.
import Mathlib.Data.List.Sort
import ShopQuery.Proofs.BodyRecord
import ShopQuery.Proofs.ByteOrder
import ShopQuery.Search.Returned

namespace ShopQuery

/-! ## The order of variables -/

/-- The variables are those of the clauses: labels first, each once and in return order, then the
variables of the steps by their bytes. -/
structure Returns (cs : List Clause) (labels : List Label) (vars : List String) : Prop where
  bound : ∀ l, l ∈ labels ↔ BoundBy cs l
  once : labels.Nodup
  ranked : labels.Sublist Label.inReturnOrder
  stepped : vars.Perm ((steps cs).map (·.var))
  sorted : vars.Pairwise fun x y => Text.bytes x ≤ Text.bytes y

/-- The results are sorted by the number of orders, and both the words and orders are bound. -/
structure Counts (cs : List Clause) (s : Search) : Prop where
  sorts : ∃ rest, s.orderBy = some ("order_count" ++ rest)
  keyword : BoundBy cs .keyword
  order : BoundBy cs .order

/-- Sorting forgets the order in which a list comes. -/
theorem mergeSort_eq_of_perm {xs ys : List String} (h : xs.Perm ys) :
    xs.mergeSort (fun x y => decide (x ≤ y)) = ys.mergeSort (fun x y => decide (x ≤ y)) := by
  apply List.Perm.eq_of_pairwise' (List.pairwise_mergeSort' (· ≤ ·) xs)
    (List.pairwise_mergeSort' (· ≤ ·) ys)
  exact (List.mergeSort_perm _ _).trans (h.trans (List.mergeSort_perm _ _).symm)

namespace Body

theorem binds_ofList_iff {cs : List Clause} {l : Label} :
    (ofList cs).binds l = true ↔ BoundBy cs l := (agrees_ofList cs).bound l

theorem bound_ofList_of_perm {cs ds : List Clause} (h : cs.Perm ds) :
    (ofList cs).bound = (ofList ds).bound := by
  ext l
  rw [Bool.eq_iff_iff]
  refine binds_ofList_iff.trans (Iff.trans ?_ binds_ofList_iff.symm)
  exact exists_congr fun c => and_congr_left' h.mem_iff

theorem vars_ofList_of_perm {cs ds : List Clause} (h : cs.Perm ds) :
    (ofList cs).vars.Perm (ofList ds).vars := by
  rw [vars_ofList, vars_ofList]
  exact h.flatMap_right _

/-- What is returned depends on what is bound, however the clauses stand. -/
theorem returned_ofList_of_perm {cs ds : List Clause} (h : cs.Perm ds) (s : Search) :
    (ofList cs).returned s = (ofList ds).returned s := by
  unfold returned orderCounting returnedVars binds
  rw [bound_ofList_of_perm h, mergeSort_eq_of_perm (vars_ofList_of_perm h)]

theorem returns_ofList (cs : List Clause) :
    Returns cs (Label.inReturnOrder.filter (ofList cs).binds)
      ((ofList cs).vars.mergeSort fun x y => decide (x ≤ y)) where
  bound l := by
    rw [List.mem_filter, binds_ofList_iff]
    exact and_iff_right (Label.mem_inReturnOrder l)
  once := (by decide : Label.inReturnOrder.Nodup).filter _
  ranked := List.filter_sublist
  stepped := by
    rw [(agrees_ofList cs).vars]
    exact List.mergeSort_perm _ _
  sorted := (List.pairwise_mergeSort' (· ≤ ·) (ofList cs).vars).imp Text.bytes_le

end Body

theorem Search.sortsByCount_iff {s : Search} :
    s.sortsByCount = true ↔ ∃ rest, s.orderBy = some ("order_count" ++ rest) := by
  unfold Search.sortsByCount
  rw [Option.any_eq_true]
  constructor
  · rintro ⟨e, he, hcount⟩
    obtain ⟨rest, hrest⟩ := List.isPrefixOf_iff_prefix.mp hcount
    refine ⟨String.ofList rest, he.trans (congrArg some ?_)⟩
    apply String.toList_injective
    simp [← hrest, orderCount]
  · rintro ⟨rest, he⟩
    refine ⟨_, he, List.isPrefixOf_iff_prefix.mpr ?_⟩
    rw [String.toList_append]
    exact List.prefix_append _ _

theorem Body.counts_iff {cs : List Clause} {s : Search} :
    (s.sortsByCount && (ofList cs).binds .keyword && (ofList cs).binds .order) = true
      ↔ Counts cs s := by
  rw [Bool.and_eq_true, Bool.and_eq_true, Search.sortsByCount_iff, binds_ofList_iff,
    binds_ofList_iff]
  constructor
  · rintro ⟨⟨hsorts, hkeyword⟩, horder⟩
    exact ⟨hsorts, hkeyword, horder⟩
  · rintro ⟨hsorts, hkeyword, horder⟩
    exact ⟨⟨hsorts, hkeyword⟩, horder⟩

/-! ## The law -/

/-- A body that is built clause by clause returns what its clauses bind and counts orders where
they are bound and sorted by. The same clauses in another order return and count the same. -/
theorem what_is_returned_does_not_depend_on_the_order_of_clauses (cs : List Clause) (s : Search) :
    (∃ labels vars, Returns cs labels vars
      ∧ ((Body.ofList cs).returned s).projection = .vars (labels.map Label.var ++ vars))
    ∧ (Counts cs s →
      ((Body.ofList cs).returned s).aggregation = some ⟨"COUNT", "order", "order_count"⟩)
    ∧ (¬ Counts cs s → ((Body.ofList cs).returned s).aggregation = none)
    ∧ ∀ ds, cs.Perm ds → (Body.ofList ds).returned s = (Body.ofList cs).returned s := by
  refine ⟨⟨_, _, Body.returns_ofList cs, rfl⟩, ?_, ?_, ?_⟩
  · intro h
    exact if_pos (Body.counts_iff.mpr h)
  · intro h
    exact if_neg (mt Body.counts_iff.mp h)
  · intro ds h
    exact Body.returned_ofList_of_perm h.symm s

/-- A made node and the step that brings orders in may change places: orders are counted where
the results are sorted by their number, and not where they are sorted by name. -/
theorem a_step_may_come_before_the_node_of_its_words :
    let node : Clause := .node .keyword .made [("keyword", .text "lamp")]
    let step : Clause := .traversal ⟨"r10", "CONTAINS", .order, .product, .optional⟩
    let byNumber : Search := ⟨some "lamp", .empty, some "order_count ASC", 5⟩
    let byName : Search := ⟨some "lamp", .empty, some "product.product_name", 5⟩
    [node, step].Perm [step, node] ∧ Counts [node, step] byNumber ∧ ¬ Counts [node, step] byName
      ∧ (Body.ofList [step, node]).returned byNumber = (Body.ofList [node, step]).returned byNumber
      ∧ ((Body.ofList [node, step]).returned byNumber).aggregation
        = some ⟨"COUNT", "order", "order_count"⟩
      ∧ ((Body.ofList [node, step]).returned byName).aggregation = none := by
  intro node step byNumber byName
  have hperm : [node, step].Perm [step, node] := List.Perm.swap step node []
  have hcounts : Counts [node, step] byNumber := Body.counts_iff.mp (by decide)
  have hnot : ¬ Counts [node, step] byName := mt Body.counts_iff.mpr (by decide)
  obtain ⟨_, hsome, _, hsame⟩ :=
    what_is_returned_does_not_depend_on_the_order_of_clauses [node, step] byNumber
  obtain ⟨_, _, hnone, _⟩ :=
    what_is_returned_does_not_depend_on_the_order_of_clauses [node, step] byName
  exact ⟨hperm, hcounts, hnot, hsame _ hperm, hsome hcounts, hnone hnot⟩

end ShopQuery
