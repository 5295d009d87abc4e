import Resampler.Proofs.Settings.Record
import Resampler.Settings.Yaml

/-!
Documents with an entry more.

An alias makes a node stand at many places, and even inside of itself. So an entry written into one
mapping of a document (`Gains`) may show at all of them, and what a node is must be compared between
two documents, node by node. A node and what it has become stand for nodes that are related in the
same way, since nothing that was added has an anchor (`rel_resolve`). They are the same scalar, or
records of which one may have gained the member (`view`).
-/

namespace Resampler.Yaml.Node

/-- The text of the scalar that a node is. -/
def name? (root n : Node) : Option String := (root.scalar? n).map (·.text)

theorem members?_eq (root : Node) (entries : List (Node × Node)) :
    root.members? entries = Record.named? root.name? entries := by
  unfold members? Record.named? name?
  congr 1
  funext ⟨k, v⟩
  cases hk : root.scalar? k <;> simp [hk]

/-- `after` is `before` with an entry of `key` and `d` in one of its mappings, where no key is
`key` as far as the document `root` tells. -/
inductive Gains (root : Node) (key : String) (d : Node) : Node → Node → Prop where
  | here {props : Properties} {front rest : List (Node × Node)}
      (h : ∀ e ∈ front ++ rest, root.name? e.1 ≠ some key) :
      Gains root key d (.mapping props (front ++ rest))
        (.mapping props (front ++ (.ofWord key, d) :: rest))
  | inItem {props : Properties} {front rest : List Node} {n n' : Node} (h : Gains root key d n n') :
      Gains root key d (.sequence props (front ++ n :: rest))
        (.sequence props (front ++ n' :: rest))
  | inKey {props : Properties} {front rest : List (Node × Node)} {k k' v : Node}
      (h : Gains root key d k k') :
      Gains root key d (.mapping props (front ++ (k, v) :: rest))
        (.mapping props (front ++ (k', v) :: rest))
  | inValue {props : Properties} {front rest : List (Node × Node)} {k v v' : Node}
      (h : Gains root key d v v') :
      Gains root key d (.mapping props (front ++ (k, v) :: rest))
        (.mapping props (front ++ (k, v') :: rest))

/-- `after` is what `before` has become. -/
def Same (root : Node) (key : String) (d before after : Node) : Prop :=
  before = after ∨ Gains root key d before after

/-! The nodes with an anchor. -/

/-- A node and the nodes inside it, as far as they have an anchor. -/
def anchored (n : Node) : List Node := n.nodes.filter (·.anchor?.isSome)

theorem nodesOfItems_eq (items : List Node) : nodesOfItems items = items.flatMap nodes := by
  induction items with
  | nil => rw [nodesOfItems, List.flatMap_nil]
  | cons n ns ih => rw [nodesOfItems, ih, List.flatMap_cons]

theorem nodesOfEntries_eq (entries : List (Node × Node)) :
    nodesOfEntries entries = entries.flatMap fun e => e.1.nodes ++ e.2.nodes := by
  induction entries with
  | nil => rw [nodesOfEntries, List.flatMap_nil]
  | cons e es ih => rw [nodesOfEntries, ih, List.flatMap_cons]

theorem anchored_sequence (props : Properties) (items : List Node) :
    (sequence props items).anchored =
      [sequence props items].filter (·.anchor?.isSome) ++ items.flatMap anchored := by
  rw [anchored, nodes, nodesOfItems_eq, ← List.singleton_append, List.filter_append,
    List.filter_flatMap]
  rfl

theorem anchored_mapping (props : Properties) (entries : List (Node × Node)) :
    (mapping props entries).anchored =
      [mapping props entries].filter (·.anchor?.isSome) ++
        entries.flatMap fun e => e.1.anchored ++ e.2.anchored := by
  rw [anchored, nodes, nodesOfEntries_eq, ← List.singleton_append, List.filter_append,
    List.filter_flatMap]
  simp only [List.filter_append]
  rfl

variable {root root' n n' d : Node} {key : String}

theorem Same.refl (n : Node) : Same root key d n n := .inl rfl

theorem forall₂_same_self (ns : List Node) : List.Forall₂ (Same root key d) ns ns :=
  List.forall₂_same.mpr fun n _ => .refl n

theorem Same.anchor?_eq (h : Same root key d n n') : n'.anchor? = n.anchor? := by
  rcases h with rfl | h
  · rfl
  · cases h <;> rfl

/-- One node with an anchor or none. -/
theorem Same.forall₂_filter (h : Same root key d n n') :
    List.Forall₂ (Same root key d) ([n].filter (·.anchor?.isSome))
      ([n'].filter (·.anchor?.isSome)) := by
  rw [List.filter_singleton, List.filter_singleton, h.anchor?_eq]
  cases n.anchor?.isSome with
  | false => exact .nil
  | true => exact .cons h .nil

theorem forall₂_anchored_sequence {props : Properties} {items items' : List Node}
    (h : Same root key d (.sequence props items) (.sequence props items'))
    (hitems : List.Forall₂ (fun n n' => List.Forall₂ (Same root key d) n.anchored n'.anchored)
      items items') :
    List.Forall₂ (Same root key d) (sequence props items).anchored
      (sequence props items').anchored := by
  rw [anchored_sequence, anchored_sequence]
  exact List.rel_append h.forall₂_filter (List.rel_flatMap hitems fun _ _ hn => hn)

theorem forall₂_anchored_mapping {props : Properties} {entries entries' : List (Node × Node)}
    (h : Same root key d (.mapping props entries) (.mapping props entries'))
    (hentries : List.Forall₂ (fun e e' =>
      List.Forall₂ (Same root key d) e.1.anchored e'.1.anchored ∧
        List.Forall₂ (Same root key d) e.2.anchored e'.2.anchored) entries entries') :
    List.Forall₂ (Same root key d) (mapping props entries).anchored
      (mapping props entries').anchored := by
  rw [anchored_mapping, anchored_mapping]
  exact List.rel_append h.forall₂_filter
    (List.rel_flatMap hentries fun _ _ he => List.rel_append he.1 he.2)

/-- No anchor comes or goes, and the nodes that have them are still related. -/
theorem Gains.forall₂_anchored (hd : d.anchored = []) (h : Gains root key d n n') :
    List.Forall₂ (Same root key d) n.anchored n'.anchored := by
  have hself (es : List (Node × Node)) : List.Forall₂ (fun e e' =>
      List.Forall₂ (Same root key d) e.1.anchored e'.1.anchored ∧
        List.Forall₂ (Same root key d) e.2.anchored e'.2.anchored) es es :=
    List.forall₂_same.mpr fun _ _ => ⟨forall₂_same_self _, forall₂_same_self _⟩
  induction h with
  | here h =>
    have hgained : ((Node.ofWord key, d).1.anchored ++ (Node.ofWord key, d).2.anchored) = [] := by
      rw [hd]
      rfl
    rw [anchored_mapping, anchored_mapping, List.flatMap_append, List.flatMap_append,
      List.flatMap_cons, hgained, List.nil_append]
    exact List.rel_append (Same.forall₂_filter (.inr (.here h))) (forall₂_same_self _)
  | inItem h ih =>
    have hitems (ns : List Node) : List.Forall₂
        (fun n n' => List.Forall₂ (Same root key d) n.anchored n'.anchored) ns ns :=
      List.forall₂_same.mpr fun _ _ => forall₂_same_self _
    exact forall₂_anchored_sequence (.inr (.inItem h))
      (List.rel_append (hitems _) (.cons ih (hitems _)))
  | inKey h ih =>
    exact forall₂_anchored_mapping (.inr (.inKey h))
      (List.rel_append (hself _) (.cons ⟨ih, forall₂_same_self _⟩ (hself _)))
  | inValue h ih =>
    exact forall₂_anchored_mapping (.inr (.inValue h))
      (List.rel_append (hself _) (.cons ⟨forall₂_same_self _, ih⟩ (hself _)))

theorem Same.forall₂_anchored (hd : d.anchored = []) (h : Same root key d n n') :
    List.Forall₂ (Same root key d) n.anchored n'.anchored := by
  rcases h with rfl | h
  · exact forall₂_same_self _
  · exact h.forall₂_anchored hd

/-! What aliases stand for. -/

theorem rel_find? {β : Type} {R : β → β → Prop} {p : β → Bool} {xs ys : List β}
    (h : List.Forall₂ R xs ys) (hp : ∀ x y, R x y → p y = p x) :
    Option.Rel R (xs.find? p) (ys.find? p) := by
  induction h with
  | nil => exact .none
  | cons hxy _ ih =>
    rw [List.find?_cons, List.find?_cons, hp _ _ hxy]
    split
    · exact .some hxy
    · exact ih

theorem resolve_reference (root : Node) (id : Nat) :
    root.resolve (.reference id) = root.anchored.reverse.find? fun n => n.anchor? == some id := by
  rw [resolve, anchored, ← List.filter_reverse, List.find?_filter]
  congr 1
  funext n
  cases n.anchor? with
  | none => rfl
  | some k => simp [beq_eq_decide]

theorem rel_resolve (hd : d.anchored = []) (hroot : Same root key d root root')
    (h : Same root key d n n') :
    Option.Rel (Same root key d) (root.resolve n) (root'.resolve n') := by
  rcases h with rfl | h
  · cases n with
    | reference id =>
      rw [resolve_reference, resolve_reference]
      exact rel_find? (List.rel_reverse (hroot.forall₂_anchored hd)) fun _ _ h => by
        rw [h.anchor?_eq]
    | scalar | sequence | mapping => exact .some (.refl _)
  · cases h with
    | here h => exact .some (.inr (.here h))
    | inItem h => exact .some (.inr (.inItem h))
    | inKey h => exact .some (.inr (.inKey h))
    | inValue h => exact .some (.inr (.inValue h))

/-! What nodes are read as. -/

section Reading

variable (hd : d.anchored = []) (hroot : Same root key d root root')
include hd hroot

theorem scalar?_eq (h : Same root key d n n') : root'.scalar? n' = root.scalar? n := by
  refine Record.bind_eq_of_rel (rel_resolve hd hroot h) fun m m' hm => ?_
  rcases hm with rfl | hm
  · rfl
  · cases hm <;> rfl

theorem name?_eq (h : Same root key d n n') : root'.name? n' = root.name? n := by
  rw [name?, name?, scalar?_eq hd hroot h]

/-- What there is to two related nodes: the same scalar, or records that are related. -/
inductive View (root root' : Node) (key : String) (d : Node) : Node → Node → Prop where
  | scalar (props : Properties) (s : Scalar) :
      View root root' key d (.scalar props s) (.scalar props s)
  | reference (id : Nat) : View root root' key d (.reference id) (.reference id)
  | sequence (props : Properties) (items items' : List Node) :
      View root root' key d (.sequence props items) (.sequence props items')
  | mapping {props : Properties} {entries entries' : List (Node × Node)}
      (h : Option.Rel (Record.Grown (fun _ => Same root key d) key d) (root.members? entries)
        (root'.members? entries')) :
      View root root' key d (.mapping props entries) (.mapping props entries')

/-- Entries whose nodes are related make members that are. -/
theorem rel_members? {entries entries' : List (Node × Node)}
    (h : List.Forall₂ (fun e e' => Same root key d e.1 e'.1 ∧ Same root key d e.2 e'.2)
      entries entries') :
    Option.Rel (Record.Grown (fun _ => Same root key d) key d) (root.members? entries)
      (root'.members? entries') := by
  rw [members?_eq, members?_eq]
  exact Record.rel_within (Record.rel_named?
    (h.imp fun _ _ he => ⟨name?_eq hd hroot he.1, fun _ _ => he.2⟩))

theorem view (h : Same root key d n n') : View root root' key d n n' := by
  have hself (es : List (Node × Node)) : List.Forall₂
      (fun e e' => Same root key d e.1 e'.1 ∧ Same root key d e.2 e'.2) es es :=
    List.forall₂_same.mpr fun e _ => ⟨.refl e.1, .refl e.2⟩
  rcases h with rfl | h
  · cases n with
    | scalar props s => exact .scalar props s
    | reference id => exact .reference id
    | sequence props items => exact .sequence props items items
    | mapping props entries => exact .mapping (rel_members? hd hroot (hself entries))
  · cases h with
    | here h =>
      refine .mapping ?_
      rw [members?_eq, members?_eq]
      exact Record.grown_named? _ (fun k => name?_eq hd hroot (.refl k)) rfl h
    | inItem h => exact .sequence _ _ _
    | @inKey props front rest k k' v h =>
      exact .mapping (rel_members? hd hroot
        (List.rel_append (hself front) (.cons ⟨.inr h, .refl v⟩ (hself rest))))
    | @inValue props front rest k v v' h =>
      exact .mapping (rel_members? hd hroot
        (List.rel_append (hself front) (.cons ⟨.refl k, .inr h⟩ (hself rest))))

theorem rel_record? (h : Same root key d n n') :
    Option.Rel (Record.Grown (fun _ => Same root key d) key d) (root.record? n)
      (root'.record? n') := by
  refine Record.rel_bind (rel_resolve hd hroot h) fun m m' hm => ?_
  cases view hd hroot hm with
  | mapping h => exact h
  | scalar | reference | sequence => exact .none

end Reading

end Resampler.Yaml.Node
