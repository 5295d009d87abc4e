import Mathlib.Logic.Relation
import Resampler.Proofs.Settings.Json
import Resampler.Proofs.Settings.Yaml

/-!
Settings as documents.

Of two ways to write settings down the same is asked (`Encodes`): that reading undoes writing, that
what has a default may be left out and says the default then, and that nothing else may be left out.
Both name the filters alike and differ in how they write the one that has a parameter, which no
name alone stands for.
-/

namespace Resampler

open Yaml (Node)
open Json (Value)

namespace Filter

/-- The filter with a parameter has no name of its own. -/
theorem ofName?_ne_gaussian (s : String) (sigma : Float) : ofName? s ≠ some (gaussian sigma) := by
  intro h
  have hmem := List.mem_of_find?_eq_some h
  simp [simple] at hmem

/-- A Gaussian is a tag on a record. -/
theorem mapping_of_ofYaml? {root n : Node} {sigma : Float}
    (h : ofYaml? root n = some (gaussian sigma)) : ∃ props entries,
      root.resolve n = some (.mapping props entries) ∧ props.name? = some "gaussian" := by
  obtain ⟨m, hm, h⟩ := Option.bind_eq_some_iff.mp h
  cases m with
  | scalar props s =>
    simp only at h
    split at h
    case h_1 => exact absurd h (ofName?_ne_gaussian _ _)
    case h_2 =>
      split at h
      case isTrue => exact absurd h (ofName?_ne_gaussian _ _)
      case isFalse => cases h
  | mapping props entries =>
    simp only at h
    split at h
    case isTrue hname => exact ⟨props, entries, hm, hname⟩
    case isFalse => cases h
  | sequence | reference => cases h

/-- A Gaussian is an object of one member. -/
theorem object_of_ofJson? {v : Value} {sigma : Float} (h : ofJson? v = some (gaussian sigma)) :
    ∃ u, v = .object [(some "gaussian", u)] := by
  unfold ofJson? at h
  split at h
  case h_1 => exact absurd h (ofName?_ne_gaussian _ _)
  case h_2 name u =>
    unfold ofMember? at h
    split at h
    case h_1 heq =>
      cases heq
      exact ⟨u, rfl⟩
    case h_2 => exact absurd h (ofName?_ne_gaussian _ _)
    case h_3 => cases h
  case h_3 => cases h

end Filter

namespace Settings

/-- `after` is the document `before` with a default in it, in a mapping that left it out. -/
inductive SpellsOutYaml (before after : Node) : Prop where
  | gained {key : String} {d : Node} (hd : (key, d) ∈ yamlDefaults)
      (h : Node.Gains before key d before after)

/-- A field without default is missing in the settings that a document is, or in their
sharpening. -/
inductive IncompleteYaml (root : Node) : Prop where
  | width (h : root.Omits "width" root)
  | height (h : root.Omits "height" root)
  | amount {u : Node} (hu : root.Holds "unsharp" root u) (h : root.Omits "amount" u)
  | radius {u : Node} (hu : root.Holds "unsharp" root u) (h : root.Omits "radius" u)

/-- A field without default is missing in the settings that a value is, or in their sharpening. -/
inductive IncompleteJson (v : Value) : Prop where
  | width (h : v.Omits fields "width")
  | height (h : v.Omits fields "height")
  | amount {u : Value} (hu : v.Holds fields "unsharp" u)
      (h : u.Omits SharpenSettings.fields "amount")
  | radius {u : Value} (hu : v.Holds fields "unsharp" u)
      (h : u.Omits SharpenSettings.fields "radius")

theorem SpellsOutYaml.ofYaml?_eq {before after : Node} (h : SpellsOutYaml before after) :
    ofYaml? after = ofYaml? before := by
  obtain ⟨hd, h⟩ := h
  exact ofYaml?_gains hd h

theorem IncompleteYaml.ofYaml?_eq_none {root : Node} (h : IncompleteYaml root) :
    ofYaml? root = none := by
  cases h with
  | width h => exact Settings.ofYaml?_eq_none (.inl h)
  | height h => exact Settings.ofYaml?_eq_none (.inr h)
  | amount hu h => exact ofYaml?_eq_none_of_holds hu (SharpenSettings.ofYaml?_eq_none (.inl h))
  | radius hu h => exact ofYaml?_eq_none_of_holds hu (SharpenSettings.ofYaml?_eq_none (.inr h))

theorem IncompleteJson.ofJson?_eq_none {v : Value} (h : IncompleteJson v) : ofJson? v = none := by
  cases h with
  | width h => exact Settings.ofJson?_eq_none (.inl h)
  | height h => exact Settings.ofJson?_eq_none (.inr h)
  | amount hu h => exact ofJson?_eq_none_of_holds hu (SharpenSettings.ofJson?_eq_none (.inl h))
  | radius hu h => exact ofJson?_eq_none_of_holds hu (SharpenSettings.ofJson?_eq_none (.inr h))

/-- Settings are written as documents and read from them without loss. `SpellsOut` writes one
default into a document, and `Incomplete` documents lack a field that has none. -/
structure Encodes {D : Type} (write : Settings Float → D) (read : D → Option (Settings Float))
    (SpellsOut : D → D → Prop) (Incomplete : D → Prop) : Prop where
  read_write : ∀ s : Settings Float, s.AllFinite → read (write s) = some s
  defaults : ∀ before after, Relation.ReflTransGen SpellsOut before after →
    read after = read before
  required : ∀ document, Incomplete document → read document = none

/-- Steps that change nothing change nothing together. -/
theorem eq_of_reflTransGen {D β : Type} {SpellsOut : D → D → Prop} {read : D → β}
    (hstep : ∀ before after, SpellsOut before after → read after = read before) {before after : D}
    (h : Relation.ReflTransGen SpellsOut before after) : read after = read before := by
  induction h with
  | refl => rfl
  | tail _ hlast ih => exact (hstep _ _ hlast).trans ih

/-- Settings survive being written, as YAML and as JSON, whatever their filter is. The one with a
parameter is a tagged record in the former and an object of one member in the latter, and nothing
else is read as it. Any document in which defaults are left out is read like the same one with
these defaults in it, written there one by one in any order; without a width or a height, or
without an amount or a radius in the sharpening that it has, it is not read at all. -/
theorem survive_encoding :
    Encodes toYaml ofYaml? SpellsOutYaml IncompleteYaml ∧
    Encodes toJson ofJson? SpellsOutJson IncompleteJson ∧
    (∀ root n sigma, Filter.ofYaml? root n = some (.gaussian sigma) → ∃ props entries,
      root.resolve n = some (.mapping props entries) ∧ props.name? = some "gaussian") ∧
    ∀ v sigma, Filter.ofJson? v = some (.gaussian sigma) →
      ∃ u, v = .object [(some "gaussian", u)] := by
  refine ⟨?yaml, ?json, fun _ _ _ => Filter.mapping_of_ofYaml?, fun _ _ => Filter.object_of_ofJson?⟩
  case yaml =>
    constructor
    case read_write => exact fun s _ => ofYaml?_toYaml s
    case defaults =>
      have hstep (before after : Node) (h : SpellsOutYaml before after) :
          ofYaml? after = ofYaml? before := h.ofYaml?_eq
      exact fun _ _ => eq_of_reflTransGen hstep
    case required => exact fun _ => IncompleteYaml.ofYaml?_eq_none
  case json =>
    constructor
    case read_write => exact fun s => ofJson?_toJson
    case defaults =>
      have hstep (before after : Value) (h : SpellsOutJson before after) :
          ofJson? after = ofJson? before := h.ofJson?_eq
      exact fun _ _ => eq_of_reflTransGen hstep
    case required => exact fun _ => IncompleteJson.ofJson?_eq_none

/-- Settings with a Gaussian; a document whose sharpening stands elsewhere and has no threshold
until one is written there; the same size as an array with and without a filter, and an object
without a height. -/
theorem survive_encoding_gaussian :
    let s : Settings Float := ⟨9, 7, .gaussian 0.75, 1.0, ⟨30, 0.5, 4⟩⟩
    let sharpening : List (Node × Node) :=
      [(.ofWord "amount", .ofInt 30), (.ofWord "radius", .ofFloat 0.5)]
    let root (entries : List (Node × Node)) : Node := .mapping .absent [
      (.ofWord "common", .mapping ⟨none, some 0⟩ entries), (.ofWord "width", .ofInt 9),
      (.ofWord "height", .ofInt 7), (.ofWord "unsharp", .reference 0)]
    let spelledOut := root (sharpening ++ [(.ofWord "threshold", .ofInt 0)])
    s.AllFinite ∧ ofYaml? s.toYaml = some s ∧ ofJson? s.toJson = some s ∧
      SpellsOutYaml (root sharpening) spelledOut ∧
      ofYaml? spelledOut = ofYaml? (root sharpening) ∧
      SpellsOutJson (.array [.integer 9, .integer 7])
        (.array [.integer 9, .integer 7, .ofString "spline36"]) ∧
      ofJson? (.array [.integer 9, .integer 7, .ofString "spline36"]) =
        ofJson? (.array [.integer 9, .integer 7]) ∧
      IncompleteJson (.object [(some "width", .integer 9)]) ∧
      ofJson? (.object [(some "width", .integer 9)]) = none := by
  intro s sharpening root spelledOut
  obtain ⟨hyaml, hjson, -⟩ := survive_encoding
  have hfinite : s.AllFinite := by
    constructor
    case sigma =>
      rintro sigma ⟨⟩
      decide
    case blur => decide
    case radius => decide
  have hinside : Node.Gains (root sharpening) "threshold" (.ofInt 0)
      (.mapping ⟨none, some 0⟩ (sharpening ++ []))
      (.mapping ⟨none, some 0⟩ (sharpening ++ (.ofWord "threshold", .ofInt 0) :: [])) :=
    .here (by decide)
  have hroot : SpellsOutYaml (root sharpening) spelledOut :=
    .gained (by simp [yamlDefaults]) (@Node.Gains.inValue _ _ _ .absent [] _ _ _ _ hinside)
  have harray : SpellsOutJson (.array [.integer 9, .integer 7])
      (.array [.integer 9, .integer 7, .ofString "spline36"]) :=
    .field (List.mem_cons_self : _ ∈ jsonDefaults) (.item rfl)
  have hobject : IncompleteJson (.object [(some "width", .integer 9)]) := by
    refine .height fun members hmembers => ?_
    obtain rfl : [("width", .integer 9)] = members := Option.some.inj hmembers
    simp [Record.lacks_iff]
  exact ⟨hfinite, hyaml.read_write s hfinite, hjson.read_write s hfinite, hroot,
    hyaml.defaults _ _ (.single hroot), harray, hjson.defaults _ _ (.single harray), hobject,
    hjson.required _ hobject⟩

end Settings

end Resampler
