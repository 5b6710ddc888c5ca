import GrammarFuzzing.Packet.Reduce
import GrammarFuzzing.Proofs.Grammar.Spelling
import GrammarFuzzing.Proofs.Parse.Recognition
import Mathlib.Data.List.TakeWhile

/-!
# Control rules

The control rules of a grammar are what can be reached from the start symbol without entering a
message. `GrammarFuzzing.Reduction.controlRules` finds them by rounds, one rule a round. The
invariant of the rounds is `GrammarFuzzing.Reduction.Exploring`: whatever a rule that was found
refers to has been found or is pending. When nothing is pending any more, the rules that were found
are closed under references that are no messages (`GrammarFuzzing.Reduction.ControlRules`).

The rounds do not run out. Each finds a new rule, so there are no more of them than rules, and one
more round than that is allowed.

A reduction goes by the numbers of the nodes in control rules. Since numbers tell nodes apart, they
are closed as well (`GrammarFuzzing.Reduction.ControlIds`).
-/

namespace GrammarFuzzing

namespace Node

mutual

/-- The numbers in a node are those of its nodes. -/
theorem ids_eq : ∀ n : Node, n.ids = n.subnodes.map Node.id
  | .terminal .. | .charset .. | .reference .. => rfl
  | .sequence _ parts | .choice _ parts => by
    rw [ids, subnodes, List.map_cons, listIds_eq]
    rfl
  | .repetition _ body _ _ _ => by
    rw [ids, subnodes, List.map_cons, ids_eq]
    rfl

theorem listIds_eq : ∀ ns : List Node, listIds ns = (listSubnodes ns).map Node.id
  | [] => rfl
  | n :: ns => by rw [listIds, listSubnodes, List.map_append, ids_eq, listIds_eq]

end

end Node

namespace Reduction

open Node hiding id

theorem mem_controlReferences {body : Node} {name : String} :
    name ∈ controlReferences body ↔
      ∃ id recipient, Node.reference id name none recipient ∈ body.leaves := by
  rw [controlReferences, List.mem_reverse, List.mem_filterMap]
  constructor
  · rintro ⟨l, hl, hname⟩
    split at hname
    · obtain rfl := Option.some.inj hname
      exact ⟨_, _, hl⟩
    · exact absurd hname (by simp)
  · rintro ⟨id, recipient, hl⟩
    exact ⟨_, hl, rfl⟩

/-- **The control rules of a grammar**: rules of the grammar, the start symbol among them, that lead
to each other. -/
structure ControlRules (g : Grammar) (found : Dictionary String Node) : Prop where
  start : g.start ∈ found.keys
  body : ∀ {name body}, found.find? name = some body → g.body? name = some body
  closed : ∀ {name body}, found.find? name = some body →
    ∀ other ∈ controlReferences body, other ∈ found.keys

/-- Rules that were found one by one, and the names that are pending. -/
structure Exploring (g : Grammar) (found : Dictionary String Node) (pending : List String) :
    Prop where
  nodup : found.keys.Nodup
  body : ∀ {name body}, found.find? name = some body → g.body? name = some body
  ruled : ∀ name ∈ pending, name ∈ g.rules.keys
  closed : ∀ {name body}, found.find? name = some body →
    ∀ other ∈ controlReferences body, other ∈ found.keys ∨ other ∈ pending

variable {g : Grammar} {found result : Dictionary String Node} {pending : List String}

/-- There are no more control rules than rules. -/
theorem Exploring.length_le (h : Exploring g found pending) : found.length ≤ g.rules.length := by
  have hsub : found.keys ⊆ g.rules.keys := by
    intro name hname
    obtain ⟨body, hbody⟩ := Dictionary.exists_find?_of_mem_keys hname
    exact Dictionary.mem_keys_of_find? (h.body hbody)
  have hle := (List.subperm_of_subset h.nodup hsub).length_le
  rwa [Dictionary.keys, Dictionary.keys, List.length_map, List.length_map] at hle

/-- What is pending has been found or comes after what has been. -/
theorem mem_or_mem_dropWhile {name : String} (h : name ∈ pending) :
    name ∈ found.keys ∨ name ∈ pending.dropWhile fun name => found.has name := by
  rw [← List.takeWhile_append_dropWhile (p := fun name => found.has name) (l := pending),
    List.mem_append] at h
  exact h.imp_left fun htake => Dictionary.has_iff_mem_keys.mp (List.mem_takeWhile_imp htake)

theorem notMem_keys_of_dropWhile {name : String} {rest : List String}
    (h : (pending.dropWhile fun name => found.has name) = name :: rest) : name ∉ found.keys := by
  have hhead := List.head?_dropWhile_not (fun name => found.has name) pending
  rw [h] at hhead
  rw [← Dictionary.has_iff_mem_keys]
  exact Bool.eq_false_iff.mp hhead

/-- **A round finds one more rule.** -/
theorem Exploring.put (hg : g.WellFormed) (h : Exploring g found pending) {name : String}
    {body : Node} {rest : List String}
    (hpending : (pending.dropWhile fun name => found.has name) = name :: rest)
    (hbody : g.body? name = some body) :
    Exploring g (found.put name body) (controlReferences body ++ rest) := by
  have hnew := notMem_keys_of_dropWhile hpending
  have hrest : ∀ other ∈ rest, other ∈ pending := fun other hother =>
    (List.dropWhile_sublist _).subset (hpending ▸ List.mem_cons_of_mem _ hother)
  refine ⟨(Dictionary.keys_put_perm hnew).nodup_iff.mpr (List.nodup_cons.mpr ⟨hnew, h.nodup⟩),
    fun {other body'} hfind => ?_, fun other hother => ?_, fun {other body'} hfind ref href => ?_⟩
  · by_cases hname : name = other
    · subst hname
      rw [Dictionary.find?_put_self] at hfind
      rwa [← Option.some.inj hfind]
    · rw [Dictionary.find?_put_of_ne hname] at hfind
      exact h.body hfind
  · rcases List.mem_append.mp hother with hother | hother
    · obtain ⟨id, recipient, hl⟩ := mem_controlReferences.mp hother
      have hoccurs := (Grammar.occurs_of_body? hbody).of_mem_subnodes
        (mem_subnodes_of_mem_leaves hl)
      exact Dictionary.has_iff_mem_keys.mp (hg.has_reference hoccurs)
    · exact h.ruled other (hrest other hother)
  · rw [Dictionary.mem_keys_put, List.mem_append]
    by_cases hname : name = other
    · subst hname
      rw [Dictionary.find?_put_self] at hfind
      obtain rfl := Option.some.inj hfind
      exact Or.inr (Or.inl href)
    · rw [Dictionary.find?_put_of_ne hname] at hfind
      rcases h.closed hfind ref href with hfound | hpend
      · exact Or.inl (Or.inr hfound)
      · rcases mem_or_mem_dropWhile hpend with hfound | hdrop
        · exact Or.inl (Or.inr hfound)
        · rw [hpending, List.mem_cons] at hdrop
          exact hdrop.imp Or.inl Or.inr

/-- **When nothing is pending, what was found is closed**, and what was pending has been found. -/
theorem Exploring.of_controlFrom (hg : g.WellFormed) (hbare : g.BareNames) {rounds : Nat}
    (h : Exploring g found pending) (hrounds : found.length + rounds = g.rules.length + 1)
    (hresult : controlFrom g rounds found pending = .ok result) :
    Exploring g result [] ∧ found.keys ⊆ result.keys ∧ pending ⊆ result.keys := by
  induction rounds generalizing found pending with
  | zero =>
    have := h.length_le
    omega
  | succ rounds ih =>
    rw [controlFrom] at hresult
    split at hresult
    · rename_i hdrop
      obtain rfl := Except.ok.inj hresult
      have hall : pending ⊆ found.keys := fun name hname =>
        (mem_or_mem_dropWhile hname).resolve_right (by rw [hdrop]; exact List.not_mem_nil)
      refine ⟨⟨h.nodup, h.body, by simp, fun hfind other hother => Or.inl ?_⟩,
        List.Subset.refl _, hall⟩
      exact (h.closed hfind other hother).elim id fun hpend => hall hpend
    · rename_i name rest hdrop
      have hname : name ∈ pending :=
        (List.dropWhile_sublist _).subset (hdrop ▸ List.mem_cons_self)
      obtain ⟨-, body, hbody⟩ := hbare.exists_body (h.ruled name hname)
      rw [hbare.rule_eq_ok hbody] at hresult
      have hlength : (found.put name body).length = found.length + 1 := by
        have hperm : (found.put name body).keys.Perm (name :: found.keys) :=
          Dictionary.keys_put_perm (notMem_keys_of_dropWhile hdrop)
        simpa [Dictionary.keys] using hperm.length_eq
      obtain ⟨hdone, hfound, hpending⟩ := ih (h.put hg hdrop hbody) (by omega) hresult
      refine ⟨hdone, fun other hother => hfound (Dictionary.mem_keys_put.mpr (Or.inr hother)),
        fun other hother => ?_⟩
      rcases mem_or_mem_dropWhile hother with hother | hother
      · exact hfound (Dictionary.mem_keys_put.mpr (Or.inr hother))
      · rw [hdrop, List.mem_cons] at hother
        rcases hother with rfl | hother
        · exact hfound (Dictionary.mem_keys_put.mpr (Or.inl rfl))
        · exact hpending (List.mem_append_right _ hother)

/-- **The control rules that are found are closed**, and each is found once. -/
theorem controlRules_eq_ok (hg : g.WellFormed) (hbare : g.BareNames)
    (hstart : g.start ∈ g.rules.keys) (h : controlRules g = .ok found) :
    ControlRules g found ∧ found.keys.Nodup := by
  have hexploring : Exploring g [] [g.start] :=
    ⟨List.nodup_nil, by simp, by simpa using hstart, by simp⟩
  obtain ⟨hdone, -, hpending⟩ := hexploring.of_controlFrom hg hbare (Nat.zero_add _) h
  refine ⟨⟨hpending List.mem_cons_self, hdone.body, fun hfind other hother => ?_⟩, hdone.nodup⟩
  exact (hdone.closed hfind other hother).resolve_right List.not_mem_nil

/-- **The numbers of control nodes** are those of the nodes in control rules. -/
theorem exists_controlRules (hg : g.WellFormed) (hbare : g.BareNames)
    (hstart : g.start ∈ g.rules.keys) {ids : List Nat} (h : controlIds g = .ok ids) :
    ∃ found, ControlRules g found ∧ ∀ id, id ∈ ids ↔
      ∃ name body, found.find? name = some body ∧ ∃ n ∈ body.subnodes, n.id = id := by
  rw [controlIds] at h
  cases hfound : controlRules g with
  | error e =>
    rw [hfound] at h
    exact absurd h (by simp [Except.map])
  | ok found =>
    rw [hfound] at h
    obtain rfl := Except.ok.inj h
    obtain ⟨hcontrol, hnodup⟩ := controlRules_eq_ok hg hbare hstart hfound
    refine ⟨found, hcontrol, fun id => ?_⟩
    rw [SortedSet.mem_ofList, List.mem_flatMap]
    simp only [Node.ids_eq, List.mem_map]
    constructor
    · rintro ⟨body, hbody, hid⟩
      obtain ⟨⟨name, _⟩, hmem, rfl⟩ := List.mem_map.mp hbody
      exact ⟨name, _, Dictionary.find?_of_mem hnodup hmem, hid⟩
    · rintro ⟨name, body, hbody, hid⟩
      exact ⟨body, List.mem_map.mpr ⟨_, Dictionary.mem_of_find? hbody, rfl⟩, hid⟩

/-- **The numbers of control nodes are closed**: what lies in a control node is one, and so is the
body of a rule that a control node refers to without sending it. -/
structure ControlIds (g : Grammar) (ids : List Nat) : Prop where
  subnodes : ∀ {n}, g.Occurs n → n.id ∈ ids → ∀ m ∈ n.subnodes, m.id ∈ ids
  reference : ∀ {id name recipient target}, g.Occurs (.reference id name none recipient) →
    id ∈ ids → g.body? name = some target → target.id ∈ ids

theorem controlIds_eq_ok (hg : g.WellFormed) (hbare : g.BareNames)
    (hstart : g.start ∈ g.rules.keys) {ids : List Nat} (h : controlIds g = .ok ids) :
    ControlIds g ids := by
  obtain ⟨found, hfound, hids⟩ := exists_controlRules hg hbare hstart h
  -- A node with the number of a node in a control rule is that node.
  have hcontrol : ∀ {n}, g.Occurs n → n.id ∈ ids →
      ∃ name body, found.find? name = some body ∧ n ∈ body.subnodes := by
    intro n hn hid
    obtain ⟨name, body, hbody, m, hm, hmn⟩ := (hids n.id).mp hid
    have hm' := (Grammar.occurs_of_body? (hfound.body hbody)).of_mem_subnodes hm
    exact ⟨name, body, hbody, hg.eq_of_id_eq hm' hn hmn ▸ hm⟩
  refine ⟨fun hn hid m hm => ?_, fun hn hid htarget => ?_⟩
  · obtain ⟨name, body, hbody, hn⟩ := hcontrol hn hid
    exact (hids m.id).mpr ⟨name, body, hbody, m, subnodes_trans hm hn, rfl⟩
  · obtain ⟨name, body, hbody, hn⟩ := hcontrol hn hid
    have hother := hfound.closed hbody _
      (mem_controlReferences.mpr ⟨_, _, mem_leaves_of_isLeaf hn trivial⟩)
    obtain ⟨body', hbody'⟩ := Dictionary.exists_find?_of_mem_keys hother
    obtain rfl := Option.some.inj ((hfound.body hbody').symm.trans htarget)
    exact (hids _).mpr ⟨_, _, hbody', _, mem_subnodes_self _, rfl⟩

end Reduction

end GrammarFuzzing
