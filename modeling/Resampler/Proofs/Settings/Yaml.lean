import Resampler.Proofs.Settings.Record
import Resampler.Proofs.Yaml.Gains
import Resampler.Settings.Yaml

/-!
Settings as nodes of a YAML document, read again.

Reading undoes writing, number by number, record by record. A default may be written out in any
mapping of the document that leaves it out: settings see it only where it says what they took for
granted, and skip it everywhere else.
-/

namespace Resampler

namespace Yaml.Node

/-! Numbers. -/

@[simp] theorem scalar?_scalar (root : Node) (props : Properties) (s : Scalar) :
    root.scalar? (.scalar props s) = some s := rfl

@[simp] theorem word?_ofInt (root : Node) (n : UInt32) :
    root.word? (.ofInt n.toNat) = some n := by
  have hn := n.toNat_lt
  simp only [word?, ofInt, scalar?_scalar, Scalar.ofInt, Option.bind_eq_bind, Option.bind_some,
    if_pos (Int.natCast_nonneg _), Int.toNat_natCast]
  rw [if_pos (by omega), UInt32.ofNat_toNat]

@[simp] theorem signedWord?_ofInt (root : Node) (n : Int32) :
    root.signedWord? (.ofInt n.toInt) = some n := by
  have hlo := n.le_toInt
  have hhi := n.toInt_lt
  simp only [signedWord?, ofInt, scalar?_scalar, Scalar.ofInt, Option.bind_eq_bind,
    Option.bind_some]
  rw [if_pos (by omega), Int32.ofInt_toInt]

@[simp] theorem byte?_ofInt (root : Node) (n : UInt8) :
    root.byte? (.ofInt n.toNat) = some n := by
  have hn := n.toNat_lt
  simp only [byte?, ofInt, scalar?_scalar, Scalar.ofInt, Option.bind_eq_bind, Option.bind_some,
    if_pos (Int.natCast_nonneg _), Int.toNat_natCast]
  rw [if_pos (by omega), UInt8.ofNat_toNat]

@[simp] theorem double?_ofFloat (root : Node) (x : Float) :
    root.double? (.ofFloat x) = some x := rfl

/-! Records. -/

@[simp] theorem members?_map (root : Node) (members : List (String × Node)) :
    root.members? (members.map fun (k, v) => (.scalar .absent (.ofWord k), v)) = some members := by
  induction members with
  | nil => rfl
  | cons m ms ih =>
    rw [members?_eq] at ih ⊢
    rw [List.map_cons, Record.named?_cons, ih]
    rfl

@[simp] theorem record?_ofMembers (root : Node) (tag : Option String)
    (members : List (String × Node)) : root.record? (ofMembers tag members) = some members :=
  members?_map root members

/-- The record that a node is, if it is one, leaves out the field `key`. -/
def Omits (root : Node) (key : String) (n : Node) : Prop :=
  ∀ members, root.record? n = some members → Record.Lacks key members

/-- The record that a node is has the value `u` in the field `key`. -/
def Holds (root : Node) (key : String) (n u : Node) : Prop :=
  ∃ members, root.record? n = some members ∧ (key, u) ∈ members

end Yaml.Node

open Yaml (Node)

theorem Filter.ofYaml?_mapping (root : Node) (props : Yaml.Properties)
    (entries : List (Node × Node)) : ofYaml? root (.mapping props entries) =
      if props.name? = some "gaussian" then gaussianOf? root entries else none := rfl

theorem Filter.ofYaml?_toYaml (root : Node) (f : Filter Float) :
    ofYaml? root f.toYaml = some f := by
  cases f with
  | gaussian sigma =>
    have hname : (⟨some (.text "!gaussian"), none⟩ : Yaml.Properties).name? = some "gaussian" := by
      decide
    rw [toYaml, Node.ofMembers, ofYaml?_mapping, Option.map_some, if_pos hname, gaussianOf?,
      Node.members?_map]
    simp [Record.required, Record.valuesOf_cons]
  | _ => rfl

theorem SharpenSettings.ofYaml?_toYaml (root : Node) (s : SharpenSettings Float) :
    ofYaml? root s.toYaml = some s := by
  simp [ofYaml?, toYaml, Record.required, Record.optional, Record.valuesOf_cons]

/-- The fields of settings and of their sharpening that may be left out, with what they are
then. -/
def Settings.yamlDefaults : List (String × Node) := [
  ("filter", (default : Filter Float).toYaml),
  ("blur", .ofFloat 1.0),
  ("unsharp", (SharpenSettings.off : SharpenSettings Float).toYaml),
  ("threshold", .ofInt 0)]

/-- Nothing in a default has an anchor. -/
theorem Settings.anchored_default {key : String} {d : Node} (h : (key, d) ∈ yamlDefaults) :
    d.anchored = [] := by
  simp only [yamlDefaults, List.mem_cons, Prod.mk.injEq, List.not_mem_nil, or_false] at h
  rcases h with ⟨-, rfl⟩ | ⟨-, rfl⟩ | ⟨-, rfl⟩ | ⟨-, rfl⟩ <;> rfl

/-- No default is one of a field that must be there. -/
theorem Settings.ne_of_default {key : String} {d : Node} (h : (key, d) ∈ yamlDefaults) {k : String}
    (hk : k ∈ ["width", "height", "amount", "radius", "sigma"]) : k ≠ key := by
  rintro rfl
  simp only [yamlDefaults, List.mem_cons, Prod.mk.injEq, List.not_mem_nil, or_false] at h hk
  rcases hk with rfl | rfl | rfl | rfl | rfl <;> simp at h

section Gained

variable {root root' n n' d : Node} {key : String} (hd : (key, d) ∈ Settings.yamlDefaults)
  (hroot : Node.Same root key d root root')
include hd hroot

theorem Yaml.Node.word?_eq (h : Node.Same root key d n n') : root'.word? n' = root.word? n := by
  rw [word?, word?, scalar?_eq (Settings.anchored_default hd) hroot h]

theorem Yaml.Node.signedWord?_eq (h : Node.Same root key d n n') :
    root'.signedWord? n' = root.signedWord? n := by
  rw [signedWord?, signedWord?, scalar?_eq (Settings.anchored_default hd) hroot h]

theorem Yaml.Node.byte?_eq (h : Node.Same root key d n n') : root'.byte? n' = root.byte? n := by
  rw [byte?, byte?, scalar?_eq (Settings.anchored_default hd) hroot h]

theorem Yaml.Node.double?_eq (h : Node.Same root key d n n') :
    root'.double? n' = root.double? n := by
  rw [double?, double?, scalar?_eq (Settings.anchored_default hd) hroot h]

theorem Filter.ofYaml?_eq (h : Node.Same root key d n n') : ofYaml? root' n' = ofYaml? root n := by
  have hanchored := Settings.anchored_default hd
  refine Record.bind_eq_of_rel (Node.rel_resolve hanchored hroot h) fun m m' hm => ?_
  cases Node.view hanchored hroot hm with
  | scalar | reference | sequence => rfl
  | @mapping props entries entries' hmembers =>
    have hgaussian : gaussianOf? root' entries' = gaussianOf? root entries := by
      refine Record.bind_eq_of_rel hmembers fun ms ms' hms => ?_
      rw [hms.required_eq (fun _ => .refl) (fun _ _ => Node.double?_eq hd hroot)
        (Settings.ne_of_default hd (by simp))]
    simp only [hgaussian]

theorem SharpenSettings.ofYaml?_eq (h : Node.Same root key d n n') :
    ofYaml? root' n' = ofYaml? root n := by
  have hanchored := Settings.anchored_default hd
  refine Record.bind_eq_of_rel (Node.rel_record? hanchored hroot h) fun ms ms' hms => ?_
  have hthreshold : Record.optional "threshold" root'.byte? 0 ms' =
      Record.optional "threshold" root.byte? 0 ms := by
    refine hms.optional_eq (fun _ => .refl) (fun _ _ => Node.byte?_eq hd hroot) ?_
    rintro rfl
    obtain rfl : d = _ := by simpa [Settings.yamlDefaults] using hd
    rfl
  rw [hms.required_eq (fun _ => .refl) (fun _ _ => Node.signedWord?_eq hd hroot)
      (Settings.ne_of_default hd (by simp)),
    hms.required_eq (fun _ => .refl) (fun _ _ => Node.double?_eq hd hroot)
      (Settings.ne_of_default hd (by simp)), hthreshold]

end Gained

theorem SharpenSettings.ofYaml?_eq_none {root u : Node}
    (h : root.Omits "amount" u ∨ root.Omits "radius" u) : ofYaml? root u = none := by
  refine Option.bind_eq_none_iff.mpr fun ms hms => ?_
  rcases h with h | h
  · simp [(h ms hms).required_eq]
  · simp [(h ms hms).required_eq]

namespace Settings

variable {root root' d u : Node} {key : String}

/-- A default may be written out anywhere. -/
theorem ofYaml?_gains (hd : (key, d) ∈ yamlDefaults) (h : Node.Gains root key d root root') :
    ofYaml? root' = ofYaml? root := by
  have hroot : Node.Same root key d root root' := .inr h
  have hanchored := anchored_default hd
  refine Record.bind_eq_of_rel (Node.rel_record? hanchored hroot hroot) fun ms ms' hms => ?_
  have hfilter : Record.optional "filter" (Filter.ofYaml? root') default ms' =
      Record.optional "filter" (Filter.ofYaml? root) default ms := by
    refine hms.optional_eq (fun _ => .refl) (fun _ _ => Filter.ofYaml?_eq hd hroot) ?_
    rintro rfl
    obtain rfl : d = _ := by simpa [yamlDefaults] using hd
    exact Filter.ofYaml?_toYaml root' default
  have hblur : Record.optional "blur" root'.double? 1.0 ms' =
      Record.optional "blur" root.double? 1.0 ms := by
    refine hms.optional_eq (fun _ => .refl) (fun _ _ => Node.double?_eq hd hroot) ?_
    rintro rfl
    obtain rfl : d = _ := by simpa [yamlDefaults] using hd
    rfl
  have hsharpen : Record.optional "unsharp" (SharpenSettings.ofYaml? root') .off ms' =
      Record.optional "unsharp" (SharpenSettings.ofYaml? root) .off ms := by
    refine hms.optional_eq (fun _ => .refl) (fun _ _ => SharpenSettings.ofYaml?_eq hd hroot) ?_
    rintro rfl
    obtain rfl : d = _ := by simpa [yamlDefaults] using hd
    exact SharpenSettings.ofYaml?_toYaml root' .off
  rw [hms.required_eq (fun _ => .refl) (fun _ _ => Node.word?_eq hd hroot)
      (ne_of_default hd (by simp)),
    hms.required_eq (fun _ => .refl) (fun _ _ => Node.word?_eq hd hroot)
      (ne_of_default hd (by simp)), hfilter, hblur, hsharpen]

theorem ofYaml?_toYaml (s : Settings Float) : ofYaml? s.toYaml = some s := by
  have hfilter := Filter.ofYaml?_toYaml s.toYaml s.filter
  have hsharpen := SharpenSettings.ofYaml?_toYaml s.toYaml s.sharpen
  simp only [toYaml] at hfilter hsharpen ⊢
  simp [ofYaml?, Record.required, Record.optional, Record.valuesOf_cons, hfilter, hsharpen]

theorem ofYaml?_eq_none (h : root.Omits "width" root ∨ root.Omits "height" root) :
    ofYaml? root = none := by
  refine Option.bind_eq_none_iff.mpr fun ms hms => ?_
  rcases h with h | h
  · simp [(h ms hms).required_eq]
  · simp [(h ms hms).required_eq]

/-- Sharpening that cannot be read makes settings that cannot be read. -/
theorem ofYaml?_eq_none_of_holds (h : root.Holds "unsharp" root u)
    (hu : SharpenSettings.ofYaml? root u = none) : ofYaml? root = none := by
  obtain ⟨ms, hms, hmem⟩ := h
  have hsharpen := Record.optional_eq_none hmem hu .off
  rw [ofYaml?, hms]
  simp [hsharpen]

end Settings

end Resampler
