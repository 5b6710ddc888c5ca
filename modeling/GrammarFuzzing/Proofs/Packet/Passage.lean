import GrammarFuzzing.Packet.Navigate
import GrammarFuzzing.Proofs.Graph.Passage
import GrammarFuzzing.Proofs.Graph.Search
import GrammarFuzzing.Proofs.Graph.Spreading

/-!
# Passages on which packets are sent

On the way through the graph of a reduction packets are sent one after the other, each of them
entered at a reference and its token right after that (`GrammarFuzzing.Navigator.Travels`). All
other places on the way are quiet: they neither enter a packet nor cost a turn. So whatever a
control rule spells is passed while packets are sent (`GrammarFuzzing.Navigator.passage`).

A passage is a walk to the token of each packet on it, at the cost of a turn for each packet
(`GrammarFuzzing.Navigator.Travels.exists_walk`), and leads to its first packet past no other one
(`GrammarFuzzing.Navigator.Travels.exists_passing`).
-/

namespace GrammarFuzzing

namespace Navigator

variable {n : Navigator}

/-- **A quiet place** enters no packet and costs no turn. -/
structure Quiet (n : Navigator) (v : Vertex) : Prop where
  packet : n.packetAt? v = none
  cost : n.graph.cost v = 0

theorem quiet_exit (n : Navigator) (rule : String) : n.Quiet (.exit rule) :=
  ⟨rfl, rfl⟩

/-- **A passage from one place up to another** on which packets are sent. -/
inductive Travels (n : Navigator) : Vertex → List Packet → Vertex → Prop where
  /-- The passage ends in a quiet place. -/
  | stop {v : Vertex} (hv : n.Quiet v) : n.Travels v [] v
  /-- It goes on from a quiet place. -/
  | pass {v w x : Vertex} {ps : List Packet} (hv : n.Quiet v) (hw : w ∈ n.graph.successors v)
      (h : n.Travels w ps x) : n.Travels v ps x
  /-- It enters a packet, and its token right after that. -/
  | send {v x : Vertex} {p : Packet} {ps : List Packet} {token : Nat}
      (hv : n.packetAt? v = some p) (htoken : n.reduction.tokenNode? p = some token)
      (hquiet : n.Quiet (.node token)) (hw : .node token ∈ n.graph.successors v)
      (h : n.Travels (.node token) ps x) : n.Travels v (p :: ps) x

/-- One passage after another, over an edge between them. -/
theorem Travels.trans {v w x y : Vertex} {ps qs : List Packet} (h : n.Travels v ps x)
    (hw : w ∈ n.graph.successors x) (h' : n.Travels w qs y) : n.Travels v (ps ++ qs) y := by
  induction h with
  | stop hv => exact .pass hv hw h'
  | pass hv hnext _ ih => exact .pass hv hnext (ih hw)
  | send hv htoken hquiet hnext _ ih => exact .send hv htoken hquiet hnext (ih hw)

/-- **What is left of a passage once a packet has been sent**, from its token on. -/
theorem Travels.after_token {v x : Vertex} {ps qs : List Packet} {p : Packet}
    (h : n.Travels v (ps ++ p :: qs) x) : ∃ token, n.reduction.tokenNode? p = some token ∧
      n.Quiet (.node token) ∧ n.Travels (.node token) qs x := by
  generalize hall : ps ++ p :: qs = all at h
  induction h generalizing ps with
  | stop => exact absurd hall (by simp)
  | pass _ _ _ ih => exact ih hall
  | @send v x q rest token hv htoken hquiet _ hrest ih =>
    cases ps with
    | nil =>
      obtain ⟨rfl, rfl⟩ := List.cons.inj hall
      exact ⟨token, htoken, hquiet, hrest⟩
    | cons q' ps => exact ih (List.cons.inj hall).2

/-- A passage on which packets are sent leaves a quiet place over an edge. -/
theorem Travels.exists_onward {v x : Vertex} {ps : List Packet} (h : n.Travels v ps x)
    (hv : n.Quiet v) (hps : ps ≠ []) : ∃ w ∈ n.graph.successors v, n.Travels w ps x := by
  cases h with
  | stop => exact absurd rfl hps
  | pass _ hw h => exact ⟨_, hw, h⟩
  | send hpacket =>
    rw [hv.packet] at hpacket
    exact absurd hpacket (by simp)

/-- **A passage is a walk to the token of each packet on it**, at the cost of a turn for each
packet. -/
theorem Travels.exists_walk {start s v x : Vertex} {ps qs : List Packet} {p : Packet} {cost : Nat}
    (h : n.Travels v (ps ++ p :: qs) x) (hs : n.graph.Walk start s cost)
    (hv : v ∈ n.graph.successors s) : ∃ token t cost', n.reduction.tokenNode? p = some token ∧
      n.graph.Walk start t cost' ∧ .node token ∈ n.graph.successors t ∧
        cost' + n.graph.cost (.node token) ≤ cost + ps.length + 1 := by
  generalize hall : ps ++ p :: qs = all at h
  induction h generalizing ps s cost with
  | stop => exact absurd hall (by simp)
  | @pass v w x rest hquiet hw _ ih =>
    obtain ⟨token, t, cost', htoken, ht, hedge, hcost⟩ := ih (hs.step hv) hw hall
    rw [hquiet.cost] at hcost
    exact ⟨token, t, cost', htoken, ht, hedge, hcost⟩
  | @send v x q rest token _ htoken hquiet hw _ ih =>
    have hturn := n.graph.cost_le_one v
    cases ps with
    | nil =>
      obtain ⟨rfl, -⟩ := List.cons.inj hall
      refine ⟨token, v, _, htoken, hs.step hv, hw, ?_⟩
      rw [hquiet.cost, List.length_nil]
      omega
    | cons q' ps =>
      obtain ⟨-, hrest⟩ := List.cons.inj hall
      obtain ⟨token, t, cost', htoken, ht, hedge, hcost⟩ := ih (hs.step hv) hw hrest
      refine ⟨token, t, cost', htoken, ht, hedge, ?_⟩
      rw [List.length_cons]
      omega

/-- **A passage leads to its first packet** past no other one. -/
theorem Travels.exists_passing {start s v x : Vertex} {qs : List Packet} {p : Packet}
    (h : n.Travels v (p :: qs) x)
    (hs : n.graph.Passing (fun v => (n.packetAt? v).isSome) start s)
    (hv : v ∈ n.graph.successors s) :
    ∃ t w, n.graph.Passing (fun v => (n.packetAt? v).isSome) start t ∧
      w ∈ n.graph.successors t ∧ n.packetAt? w = some p := by
  generalize hall : p :: qs = all at h
  induction h generalizing s with
  | stop => exact absurd hall (by simp)
  | pass hquiet hw _ ih =>
    refine ih (hs.step hv ?_) hw hall
    rw [hquiet.packet, Option.isSome_none]
  | send hpacket _ _ _ _ _ =>
    obtain ⟨rfl, -⟩ := List.cons.inj hall
    exact ⟨s, _, hs, hv, hpacket⟩

/-- **The passages on which packets are sent.** -/
def passage (n : Navigator) : n.graph.Passage Packet where
  Quiet := n.Quiet
  Along := n.Travels
  stop := .stop
  trans := .trans

end Navigator

end GrammarFuzzing
