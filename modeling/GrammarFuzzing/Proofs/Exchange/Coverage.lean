import GrammarFuzzing.Exchange.Coverage
import GrammarFuzzing.Proofs.Grammar.Reach
import GrammarFuzzing.Proofs.Number.Exact

/-!
# What coverage measures

A tree counts for what its outermost messages **show**: the type of each and the names that occur
inside it (`GrammarFuzzing.Tree.sightings`). Taking in trees is taking in sightings one by one, and
what is kept of them is sets (`GrammarFuzzing.Coverage.Noted`): the types that were shown, and for
each type those of its possible names that were shown inside.

So the items that were seen are counted without the order of the trees
(`GrammarFuzzing.Coverage.seenCount_ofTrees`), and the share of the items is a number between zero
and one that never decreases and depends on the set of the trees only
(`GrammarFuzzing.Coverage.rises_with_trees`).

Whether the structure of a message is an input depends on who sends it. A type of message has one
sender here, the one of its last reference: a message that is sent by several parties counts as an
input if the last reference names a party of this side, which is what is meant only where the
references agree (`GrammarFuzzing.Coverage.structure_counts`).
-/

namespace GrammarFuzzing

/-! ### What trees show -/

namespace Tree

/-- What a message of a tree shows: its type and the names inside it. -/
def sighting? (t : Tree) (m : TreeMessage) : Option (String × List String) :=
  match m.symbol.name?, t.get? m.path with
  | some name, some node => some (name, Coverage.innerNames node)
  | _, _ => none

/-- **What the messages of a tree show.** -/
def sightings (t : Tree) : List (String × List String) :=
  t.messages.filterMap t.sighting?

end Tree

namespace Coverage

/-- Whether one of some trees shows a message of a type. -/
def Shown (ts : List Tree) (name : String) : Prop :=
  ∃ t ∈ ts, ∃ s ∈ t.sightings, s.1 = name

/-- Whether one of some trees shows a name inside a message of a type. -/
def ShownInside (ts : List Tree) (name inner : String) : Prop :=
  ∃ t ∈ ts, ∃ s ∈ t.sightings, s.1 = name ∧ inner ∈ s.2

instance (ts : List Tree) (name : String) : Decidable (Shown ts name) :=
  inferInstanceAs (Decidable (∃ t ∈ ts, ∃ s ∈ t.sightings, s.1 = name))

instance (ts : List Tree) (name inner : String) : Decidable (ShownInside ts name inner) :=
  inferInstanceAs (Decidable (∃ t ∈ ts, ∃ s ∈ t.sightings, s.1 = name ∧ inner ∈ s.2))

/-- **The coverage of a grammar by some trees**, which were taken in one after the other. -/
def ofTrees (g : Grammar) (goal : CoverageGoal) (localParties : List String) (ts : List Tree) :
    Coverage :=
  ts.foldl observe (.of g goal localParties)

/-- The names that can occur inside a type of message. -/
def inside (c : Coverage) (name : String) : List String :=
  (c.possible.find? name).getD []

/-- The names that were seen inside a type of message. -/
def seenInside (c : Coverage) (name : String) : List String :=
  (c.covered.find? name).getD []

/-! ### Taking in sightings -/

/-- Takes in one sighting. -/
def note (c : Coverage) (s : String × List String) : Coverage :=
  { c with
    seen := SortedSet.insert s.1 c.seen
    covered := c.covered.put s.1
      (SortedSet.union (c.seenInside s.1) (s.2.filter (c.inside s.1).contains)) }

theorem observeMessage_eq (t : Tree) (c : Coverage) (m : TreeMessage) :
    observeMessage t c m = ((t.sighting? m).map c.note).getD c := by
  rw [observeMessage, Tree.sighting?]
  cases m.symbol.name? with
  | none => rfl
  | some name => cases t.get? m.path <;> rfl

/-- **Taking in a tree is taking in what it shows.** -/
theorem observe_eq (c : Coverage) (t : Tree) : c.observe t = t.sightings.foldl note c := by
  rw [observe, Tree.sightings, List.foldl_filterMap]
  congr 1
  funext c m
  rw [observeMessage_eq]
  cases t.sighting? m <;> rfl

theorem foldl_observe_eq (c : Coverage) (ts : List Tree) :
    ts.foldl observe c = (ts.flatMap Tree.sightings).foldl note c := by
  rw [List.foldl_flatMap]
  congr 1
  funext c t
  exact c.observe_eq t

/-- **What is kept of some sightings**: the types that were shown, and those of the possible names
that were shown inside each of them, each name once. -/
structure Noted (c₀ c : Coverage) (ss : List (String × List String)) : Prop where
  frame : c = { c₀ with covered := c.covered, seen := c.seen }
  mem_seen : ∀ name, name ∈ c.seen ↔ ∃ s ∈ ss, s.1 = name
  sorted : ∀ name, (c.seenInside name).Pairwise fun a b => compare a b = .lt
  mem_seenInside : ∀ name x, x ∈ c.seenInside name ↔
    x ∈ c₀.inside name ∧ ∃ s ∈ ss, s.1 = name ∧ x ∈ s.2

variable {c₀ c : Coverage} {ss : List (String × List String)}

theorem Noted.inside_eq (h : Noted c₀ c ss) : c.inside = c₀.inside := by
  rw [h.frame]
  rfl

/-- What was seen inside a type is what it was, or grew by the names of the sighting. -/
theorem seenInside_note (c : Coverage) (s : String × List String) (name : String) :
    (c.note s).seenInside name =
      if s.1 = name then SortedSet.union (c.seenInside name) (s.2.filter (c.inside name).contains)
      else c.seenInside name := by
  rw [seenInside, note]
  split
  · rename_i hname
    subst hname
    rw [Dictionary.find?_put_self, Option.getD_some]
  · rename_i hname
    rw [Dictionary.find?_put_of_ne hname, seenInside]

/-- **One more sighting** is kept, too. -/
theorem Noted.note (h : Noted c₀ c ss) (s : String × List String) :
    Noted c₀ (c.note s) (ss ++ [s]) := by
  have hlast : ∀ P : String × List String → Prop,
      (∃ r ∈ ss ++ [s], P r) ↔ (∃ r ∈ ss, P r) ∨ P s := by simp [or_and_right, exists_or]
  refine ⟨?_, fun name => ?_, fun name => ?_, fun name x => ?_⟩
  · rw [Coverage.note, h.frame]
  · rw [Coverage.note, SortedSet.mem_insert, h.mem_seen, hlast, or_comm, eq_comm]
  · rw [seenInside_note]
    split
    · exact SortedSet.sorted_union (h.sorted name) _
    · exact h.sorted name
  · rw [seenInside_note, hlast, and_or_left, ← h.mem_seenInside]
    split
    · rename_i hname
      rw [SortedSet.mem_union, List.mem_filter, List.contains_iff_mem, h.inside_eq,
        and_comm (a := x ∈ s.2)]
      simp [hname]
    · rename_i hname
      simp [hname]

theorem Noted.foldl_note : ∀ {rest : List (String × List String)} {c : Coverage}
    {ss : List (String × List String)}, Noted c₀ c ss →
      Noted c₀ (rest.foldl Coverage.note c) (ss ++ rest)
  | [], _, ss, h => ss.append_nil.symm ▸ h
  | s :: rest, _, ss, h => by
    rw [List.foldl_cons, List.append_cons]
    exact (h.note s).foldl_note

theorem noted_of (g : Grammar) (goal : CoverageGoal) (localParties : List String) :
    Noted (of g goal localParties) (of g goal localParties) [] :=
  ⟨rfl, fun name => by simp [of], fun name => by simp [of, seenInside],
    fun name x => by simp [of, seenInside]⟩

variable (g : Grammar) (goal : CoverageGoal) (localParties : List String)

/-- **What is kept of some trees** is what they show. -/
theorem noted_ofTrees (ts : List Tree) :
    Noted (of g goal localParties) (ofTrees g goal localParties ts)
      (ts.flatMap Tree.sightings) := by
  rw [ofTrees, foldl_observe_eq]
  exact (noted_of g goal localParties).foldl_note

theorem exists_sighting_iff {ts : List Tree} {P : String × List String → Prop} :
    (∃ s ∈ ts.flatMap Tree.sightings, P s) ↔ ∃ t ∈ ts, ∃ s ∈ t.sightings, P s := by
  simp only [List.mem_flatMap]
  exact ⟨fun ⟨s, ⟨t, ht, hs⟩, h⟩ => ⟨t, ht, s, hs, h⟩, fun ⟨t, ht, s, hs, h⟩ => ⟨s, ⟨t, ht, hs⟩, h⟩⟩

theorem mem_seen_ofTrees {ts : List Tree} {name : String} :
    name ∈ (ofTrees g goal localParties ts).seen ↔ Shown ts name := by
  rw [(noted_ofTrees g goal localParties ts).mem_seen, exists_sighting_iff, Shown]

theorem mem_seenInside_ofTrees {ts : List Tree} {name x : String} :
    x ∈ (ofTrees g goal localParties ts).seenInside name ↔
      x ∈ (of g goal localParties).inside name ∧ ShownInside ts name x := by
  rw [(noted_ofTrees g goal localParties ts).mem_seenInside, exists_sighting_iff, ShownInside]

/-! ### Counting items -/

/-- The possible names are listed once. -/
theorem nodup_inside (name : String) : ((of g goal localParties).inside name).Nodup := by
  rw [inside]
  cases hfind : (of g goal localParties).possible.find? name with
  | none => exact List.nodup_nil
  | some names =>
    have hmem := Dictionary.mem_of_mem_ofPairs (Dictionary.mem_of_find? hfind)
    obtain ⟨reference, -, heq⟩ := List.mem_map.mp hmem
    obtain ⟨rfl, rfl⟩ := Prod.mk.inj heq
    rw [Option.getD_some]
    cases hreach : g.reachable reference.1 with
    | error e => exact List.nodup_nil
    | ok names => exact SortedSet.nodup_of_sorted (Grammar.sorted_of_reachable hreach)

theorem countsStructure_ofTrees (ts : List Tree) (name : String) :
    (ofTrees g goal localParties ts).countsStructure name =
      (of g goal localParties).countsStructure name := by
  rw [(noted_ofTrees g goal localParties ts).frame]
  rfl

theorem itemCount_ofTrees (ts : List Tree) (name : String) :
    (ofTrees g goal localParties ts).itemCount name =
      1 + if (of g goal localParties).countsStructure name
        then ((of g goal localParties).inside name).length else 0 := by
  rw [(noted_ofTrees g goal localParties ts).frame]
  rfl

/-- **The items that were seen are those that the trees show**: the type of the message, and those
of the possible names that are shown inside it if the structure counts. -/
theorem seenCount_ofTrees (ts : List Tree) (name : String) :
    (ofTrees g goal localParties ts).seenCount name =
      (if Shown ts name then 1 else 0) + if (of g goal localParties).countsStructure name
        then (((of g goal localParties).inside name).filter (ShownInside ts name ·)).length
        else 0 := by
  have hperm : ((ofTrees g goal localParties ts).seenInside name).Perm
      (((of g goal localParties).inside name).filter (ShownInside ts name ·)) := by
    refine (List.perm_ext_iff_of_nodup ?_ ((nodup_inside g goal localParties name).filter _)).mpr
      fun x => ?_
    · exact SortedSet.nodup_of_sorted ((noted_ofTrees g goal localParties ts).sorted name)
    · rw [mem_seenInside_ofTrees, List.mem_filter, decide_eq_true_iff]
  rw [seenCount, countsStructure_ofTrees, ← hperm.length_eq]
  simp only [List.contains_iff_mem, mem_seen_ofTrees, seenInside]

variable {ts us : List Tree}

theorem seenCount_le_itemCount (ts : List Tree) (name : String) :
    (ofTrees g goal localParties ts).seenCount name ≤
      (ofTrees g goal localParties ts).itemCount name := by
  rw [seenCount_ofTrees, itemCount_ofTrees]
  refine Nat.add_le_add (by split <;> omega) ?_
  split
  · exact List.length_filter_le _ _
  · exact Nat.le_refl 0

/-- **More trees show more.** -/
theorem seenCount_mono (h : ts ⊆ us) (name : String) :
    (ofTrees g goal localParties ts).seenCount name ≤
      (ofTrees g goal localParties us).seenCount name := by
  have hshown : Shown ts name → Shown us name := fun ⟨t, ht, hs⟩ => ⟨t, h ht, hs⟩
  have hinside : ∀ x, ShownInside ts name x → ShownInside us name x :=
    fun x ⟨t, ht, hs⟩ => ⟨t, h ht, hs⟩
  rw [seenCount_ofTrees, seenCount_ofTrees]
  refine Nat.add_le_add ?_ ?_
  · split
    · rw [if_pos (hshown ‹_›)]
    · exact Nat.zero_le _
  · split
    · refine (List.monotone_filter_right _ fun x hx => ?_).length_le
      exact decide_eq_true (hinside x (of_decide_eq_true hx))
    · exact Nat.le_refl 0

/-- **Only the set of the trees matters.** -/
theorem seenCount_congr (h : ∀ t, t ∈ ts ↔ t ∈ us) (name : String) :
    (ofTrees g goal localParties ts).seenCount name =
      (ofTrees g goal localParties us).seenCount name :=
  Nat.le_antisymm (seenCount_mono g goal localParties (fun t => (h t).mp) name)
    (seenCount_mono g goal localParties (fun t => (h t).mpr) name)

theorem itemCount_congr (ts us : List Tree) (name : String) :
    (ofTrees g goal localParties ts).itemCount name =
      (ofTrees g goal localParties us).itemCount name := by
  rw [itemCount_ofTrees, itemCount_ofTrees]

theorem possible_ofTrees (ts : List Tree) :
    (ofTrees g goal localParties ts).possible = (of g goal localParties).possible := by
  rw [(noted_ofTrees g goal localParties ts).frame]

/-! ### Shares -/

/-- **The share of all items that were seen**, as a rational number. -/
def share (c : Coverage) : ℚ :=
  sumOf (c.possible.keys.map c.seenCount) / sumOf (c.possible.keys.map c.itemCount)

/-- **The share of the items of a type of message.** -/
def shareOf (c : Coverage) (name : String) : ℚ :=
  c.seenCount name / c.itemCount name

theorem fraction_eq (c : Coverage) : (c.fraction : Exact) = .rational c.share := by
  rw [fraction, share]
  split
  · rename_i hzero
    rw [hzero, Nat.cast_zero, div_zero, Exact.ofNat_eq, Nat.cast_zero]
  · exact Exact.ratio_eq _ ‹_›

theorem byType_eq (c : Coverage) :
    (c.byType : Dictionary String Exact) =
      c.possible.map fun p => (p.1, .rational (c.shareOf p.1)) := by
  refine List.map_congr_left fun p _ => congrArg (p.1, ·) (Exact.ratio_eq _ ?_)
  rw [itemCount]
  omega

/-- A part of some items is a share of them between zero and one. -/
theorem inUnit_share {a b : Nat} (h : a ≤ b) : Exact.InUnit (.rational (a / b)) := by
  have hle : (a : ℚ) ≤ b := by exact_mod_cast h
  exact Exact.inUnit_rational (by positivity) (div_le_one_of_le₀ hle (by positivity))

theorem share_mono (h : ts ⊆ us) :
    (ofTrees g goal localParties ts).share ≤ (ofTrees g goal localParties us).share := by
  rw [share, share, possible_ofTrees, possible_ofTrees,
    List.map_congr_left fun name _ => itemCount_congr g goal localParties ts us name]
  gcongr
  exact sumOf_map_le fun name _ => seenCount_mono g goal localParties h name

theorem shareOf_mono (h : ts ⊆ us) (name : String) :
    (ofTrees g goal localParties ts).shareOf name ≤
      (ofTrees g goal localParties us).shareOf name := by
  rw [shareOf, shareOf, itemCount_congr g goal localParties ts us]
  have hle := seenCount_mono g goal localParties h name
  gcongr

/-- **Coverage measures the set of the trees that were taken in.** It and its part for each type of
message are between zero and one, do not decrease with one more tree, and are the same for the same
trees in another order or taken in more often, however they are computed. -/
theorem rises_with_trees (ts : List Tree) :
    (Exact.InUnit (ofTrees g goal localParties ts).fraction ∧
      ∀ p ∈ ((ofTrees g goal localParties ts).byType : Dictionary String Exact),
        Exact.InUnit p.2) ∧
      (∀ t, Scalar.lt ((ofTrees g goal localParties ts).observe t).fraction
          ((ofTrees g goal localParties ts).fraction : Exact) = false ∧
        List.Forall₂ (fun p q => p.1 = q.1 ∧ Scalar.lt q.2 p.2 = false)
          ((ofTrees g goal localParties ts).byType : Dictionary String Exact)
          ((ofTrees g goal localParties ts).observe t).byType) ∧
      ∀ us : List Tree, (∀ t, t ∈ us ↔ t ∈ ts) → ∀ {α : Type} [Scalar α],
        ((ofTrees g goal localParties us).fraction : α) =
            (ofTrees g goal localParties ts).fraction ∧
          ((ofTrees g goal localParties us).byType : Dictionary String α) =
            (ofTrees g goal localParties ts).byType := by
  refine ⟨⟨?_, fun p hp => ?_⟩, fun t => ?_, fun us h α _ => ?_⟩
  · rw [fraction_eq, share]
    exact inUnit_share
      (sumOf_map_le fun name _ => seenCount_le_itemCount g goal localParties ts name)
  · rw [byType_eq] at hp
    obtain ⟨q, -, rfl⟩ := List.mem_map.mp hp
    exact inUnit_share (seenCount_le_itemCount g goal localParties ts q.1)
  · have hnext : (ofTrees g goal localParties ts).observe t =
        ofTrees g goal localParties (ts ++ [t]) := by
      rw [ofTrees, ofTrees, List.foldl_append, List.foldl_cons, List.foldl_nil]
    have hmore : ts ⊆ ts ++ [t] := List.subset_append_left ts [t]
    rw [hnext, fraction_eq, fraction_eq, byType_eq, byType_eq, possible_ofTrees, possible_ofTrees]
    refine ⟨decide_eq_false (not_lt.mpr (share_mono g goal localParties hmore)), ?_⟩
    rw [List.forall₂_map_left_iff, List.forall₂_map_right_iff, List.forall₂_same]
    exact fun p _ =>
      ⟨rfl, decide_eq_false (not_lt.mpr (shareOf_mono g goal localParties hmore p.1))⟩
  · have hseen := funext (seenCount_congr g goal localParties h)
    have hitems := funext (itemCount_congr g goal localParties us ts)
    rw [fraction, fraction, byType, byType, possible_ofTrees, possible_ofTrees, hseen, hitems]
    exact ⟨rfl, rfl⟩

end Coverage

/-- A question of one party and the answer of another one. -/
def Document.questions : Document :=
  ⟨"start", [("answer", .alt [.ref "no", .ref "yes"]), ("ask", .text "?"), ("no", .text "0"),
    ("start", .seq [.message "ask" "A" (some "B"), .message "answer" "B" (some "A")]),
    ("yes", .text "1")], []⟩

/-- A question with one of the answers. -/
def Tree.answered (word value : String) : Tree :=
  .branch "start" [(Tree.branch "ask" [.leaf (.text "?")]).withParty (some "A") (some "B"),
    (Tree.branch "answer" [.branch word [.leaf (.text value)]]).withParty (some "B") (some "A")]

namespace Coverage

/-- Two answers in any order, one of them twice. -/
theorem rises_questions : ∃ g, Document.questions.toGrammar = .ok g ∧
    ((ofTrees g .statesInputs ["B"] [.answered "no" "0", .answered "yes" "1",
        .answered "no" "0"]).fraction : Exact) =
      (ofTrees g .statesInputs ["B"] [.answered "yes" "1", .answered "no" "0"]).fraction := by
  have h : Document.questions.toGrammar = .ok _ := rfl
  refine ⟨_, h, ((rises_with_trees _ .statesInputs ["B"] _).2.2 _ fun t => ?_).1⟩
  simp only [List.mem_cons, List.not_mem_nil, or_false]
  tauto

/-! ### Inputs -/

variable (g : Grammar) (goal : CoverageGoal) (localParties : List String)

/-- The senders that the references to a type of message name, in the order of the references. -/
def sendersOf (g : Grammar) (name : String) : List String :=
  g.nodes.toList.filterMap fun
    | .reference _ name' (some sender) _ => if name' = name then some sender else none
    | _ => none

/-- What is kept for a type of message is kept for each of its references. -/
theorem filterMap_messageReferences {β : Type} (f : String × String → β) (name : String) :
    ((messageReferences g).filterMap fun p => if p.1 = name then some (f p) else none) =
      (sendersOf g name).map fun sender => f (name, sender) := by
  rw [messageReferences, sendersOf, List.filterMap_filterMap, List.map_filterMap]
  congr 1
  funext n
  cases n with
  | reference id name' sender recipient =>
    cases sender with
    | none => rfl
    | some sender =>
      by_cases hname : name' = name
      · subst hname
        simp
      · simp [hname]
  | _ => rfl

/-- **The sender of a type of message** is that of its last reference. -/
theorem find?_senders (name : String) :
    (of g goal localParties).senders.find? name = (sendersOf g name).getLast? := by
  rw [of, Dictionary.find?_ofPairs, filterMap_messageReferences g Prod.snd, List.map_id']

/-- The names that can occur inside a type of message, if any reference sends it. -/
theorem find?_possible (name : String) :
    (of g goal localParties).possible.find? name =
      (sendersOf g name).getLast?.map fun _ => ((g.reachable name).toOption).getD [] := by
  rw [of, Dictionary.find?_ofPairs, List.filterMap_map, ← List.getLast?_map,
    ← filterMap_messageReferences g fun p => ((g.reachable p.1).toOption).getD []]
  rfl

/-- The share of a type of message whose structure does not count: all of it once it was shown. -/
def typeShare (ts : List Tree) (name : String) : ℚ :=
  if Shown ts name then 1 else 0

/-- The share of a type of message whose structure counts: of the type itself and of the names
reachable from it, those that were shown. -/
def structureShare (ts : List Tree) (name : String) : ℚ :=
  let names := ((g.reachable name).toOption).getD []
  (typeShare ts name + (names.filter (ShownInside ts name ·)).length) / (1 + names.length)

/-- **The structure of a message counts if its last reference names a party of this side.** -/
theorem countsStructure_statesInputs (hlocal : localParties ≠ []) (name : String) :
    (of g .statesInputs localParties).countsStructure name = true ↔
      ∃ sender ∈ localParties, (sendersOf g name).getLast? = some sender := by
  have hsenders := find?_senders g .statesInputs localParties name
  rw [countsStructure]
  change isInput _ name = true ↔ _
  rw [isInput, hsenders]
  cases (sendersOf g name).getLast? with
  | none => simp
  | some sender => simp [of, hlocal]

theorem find?_byType (ts : List Tree) (name : String) :
    ((ofTrees g goal localParties ts).byType : Dictionary String Exact).find? name =
      (sendersOf g name).getLast?.map fun _ =>
        .rational ((ofTrees g goal localParties ts).shareOf name) := by
  rw [byType_eq, Dictionary.find?_map_keys fun name =>
    Exact.rational ((ofTrees g goal localParties ts).shareOf name), possible_ofTrees,
    find?_possible, Option.map_map]
  rfl

/-- **The share of a type of message** under this goal. -/
theorem shareOf_statesInputs (hlocal : localParties ≠ []) {name sender : String}
    (hsender : (sendersOf g name).getLast? = some sender) (ts : List Tree) :
    (ofTrees g .statesInputs localParties ts).shareOf name =
      if sender ∈ localParties then structureShare g ts name else typeShare ts name := by
  have hinside : (of g .statesInputs localParties).inside name =
      ((g.reachable name).toOption).getD [] := by
    rw [inside, find?_possible, hsender, Option.map_some, Option.getD_some]
  have hcounts := countsStructure_statesInputs g localParties hlocal name
  rw [hsender] at hcounts
  rw [shareOf, seenCount_ofTrees, itemCount_ofTrees, hinside]
  by_cases hmem : sender ∈ localParties
  · have hyes := hcounts.mpr ⟨sender, hmem, rfl⟩
    rw [if_pos hmem, if_pos hyes, if_pos hyes, structureShare, typeShare]
    push_cast
    rfl
  · have hnot : ¬ (of g .statesInputs localParties).countsStructure name = true := by
      rw [hcounts]
      rintro ⟨s, hs, heq⟩
      exact hmem (Option.some.inj heq ▸ hs)
    rw [if_neg hmem, if_neg hnot, if_neg hnot, typeShare]
    push_cast
    simp

/-- **What counts as an input.** The share of a type of message takes in its structure exactly if
the last of its references names a party of this side. So where the references agree whether their
senders are parties of this side, in particular where there is one sender, it takes it in exactly if
some reference names such a party, whatever the order of the references. -/
theorem structure_counts (hlocal : localParties ≠ []) (name : String) (ts : List Tree) :
    ((ofTrees g .statesInputs localParties ts).byType : Dictionary String Exact).find? name =
        ((sendersOf g name).getLast?.map fun sender => .rational
          (if sender ∈ localParties then structureShare g ts name else typeShare ts name)) ∧
      ((∀ s ∈ sendersOf g name, ∀ s' ∈ sendersOf g name, s ∈ localParties → s' ∈ localParties) →
        sendersOf g name ≠ [] →
        ((ofTrees g .statesInputs localParties ts).byType : Dictionary String Exact).find? name =
          some (.rational (if ∃ s ∈ sendersOf g name, s ∈ localParties then structureShare g ts name
            else typeShare ts name))) := by
  have hlast : ((ofTrees g .statesInputs localParties ts).byType : Dictionary String Exact).find?
      name = ((sendersOf g name).getLast?.map fun sender => .rational
        (if sender ∈ localParties then structureShare g ts name else typeShare ts name)) := by
    rw [find?_byType]
    cases hsender : (sendersOf g name).getLast? with
    | none => rfl
    | some sender =>
      rw [Option.map_some, Option.map_some, shareOf_statesInputs g localParties hlocal hsender]
  refine ⟨hlast, fun hagree hne => ?_⟩
  have hmem := List.getLast_mem hne
  have hiff : (sendersOf g name).getLast hne ∈ localParties ↔
      ∃ s ∈ sendersOf g name, s ∈ localParties :=
    ⟨fun h => ⟨_, hmem, h⟩, fun ⟨s, hs, h⟩ => hagree s hs _ hmem h⟩
  rw [hlast, List.getLast?_eq_some_getLast hne, Option.map_some]
  simp only [hiff]

/-- The answer is an input of the party that gives it. One of its two words was shown. -/
theorem inputs_questions : ∃ g, Document.questions.toGrammar = .ok g ∧
    ((ofTrees g .statesInputs ["B"] [.answered "yes" "1"]).byType :
      Dictionary String Exact).find? "answer" = some (.rational (2 / 3)) := by
  have h : Document.questions.toGrammar = .ok _ := rfl
  refine ⟨_, h,
    ((structure_counts _ ["B"] (by decide) "answer" _).2 (by decide) (by decide)).trans ?_⟩
  have hnames : ∀ g, Document.questions.toGrammar = .ok g →
      ((g.reachable "answer").toOption).getD [] = ["no", "yes"] := by
    rintro g ⟨⟩
    decide
  have hshown : (["no", "yes"].filter
      (ShownInside [.answered "yes" "1"] "answer" ·)).length = 1 := by decide
  rw [if_pos (by decide), structureShare, typeShare, if_pos (by decide), hnames _ h, hshown]
  norm_num

end Coverage

end GrammarFuzzing
