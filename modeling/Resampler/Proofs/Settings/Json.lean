import Resampler.Proofs.Settings.Record
import Resampler.Settings.Json

/-!
Settings as JSON values, read again.

Reading undoes writing, number by number, record by record. A value that leaves out fields with
defaults reads as one that has them: as a further member if it is an object, and as a further
item if it is an array (`WritesOut`). Inside of settings the sharpening is a record of its own,
and may be exchanged for one that reads the same (`Exchanges`).
-/

namespace Resampler

namespace Json.Value

/-! Numbers. -/

@[simp] theorem word?_integer (n : UInt32) : (integer n.toNat).word? = some n := by
  have hn := n.toNat_lt
  rw [word?, integer?, if_pos (by omega)]
  simp

@[simp] theorem signedWord?_integer (n : Int32) : (integer n.toInt).signedWord? = some n := by
  have hlo := n.le_toInt
  have hhi := n.toInt_lt
  rw [signedWord?, integer?, if_pos (by omega)]
  simp

@[simp] theorem byte?_integer (n : UInt8) : (integer n.toNat).byte? = some n := by
  have hn := n.toNat_lt
  rw [byte?, integer?, if_pos (by omega)]
  simp

theorem double?_ofFloat {x : Float} (h : x.isFinite = true) : (ofFloat x).double? = some x := by
  rw [ofFloat, if_pos h, double?, double?.finite, if_pos h]

/-! Records. -/

@[simp] theorem record?_ofMembers (fields : List String) (members : List (String × Value)) :
    (ofMembers members).record? fields = some members := by
  induction members with
  | nil => rfl
  | cons m ms ih =>
    simp only [ofMembers, record?, List.map_cons, List.mapM_cons] at ih ⊢
    rw [ih]
    rfl

theorem record?_object (fields : List String) (members : List (Option String × Value)) :
    (object members).record? fields = Record.named? id members := rfl

theorem record?_array_of_le {fields : List String} {items : List Value}
    (h : items.length ≤ fields.length) : (array items).record? fields = some (fields.zip items) :=
  if_pos h

/-- `after` is the record `before` with the field `key` in it, which it leaves out. -/
inductive WritesOut (fields : List String) (key : String) (d : Value) : Value → Value → Prop where
  | member {front rest : List (Option String × Value)}
      (h : ∀ m ∈ front ++ rest, m.1 ≠ some key) :
      WritesOut fields key d (.object (front ++ rest)) (.object (front ++ (some key, d) :: rest))
  | item {items : List Value} (h : fields[items.length]? = some key) :
      WritesOut fields key d (.array items) (.array (items ++ [d]))

/-- `after` is the record `before` with `u'` for `u` in the field `key`. -/
inductive Exchanges (fields : List String) (key : String) (u u' : Value) :
    Value → Value → Prop where
  | member {front rest : List (Option String × Value)} :
      Exchanges fields key u u' (.object (front ++ (some key, u) :: rest))
        (.object (front ++ (some key, u') :: rest))
  | item {front rest : List Value} (h : fields[front.length]? = some key) :
      Exchanges fields key u u' (.array (front ++ u :: rest)) (.array (front ++ u' :: rest))

variable {fields : List String} {key : String} {d u u' before after : Value}

/-! The items of an array are the values of the fields in their order. -/

theorem fields_eq {i : Nat} (h : fields[i]? = some key) :
    fields = fields.take i ++ key :: fields.drop (i + 1) := by
  obtain ⟨hlt, rfl⟩ := List.getElem?_eq_some_iff.mp h
  rw [← List.drop_eq_getElem_cons hlt, List.take_append_drop]

theorem zip_append {front : List Value} (h : fields[front.length]? = some key)
    (rest : List Value) :
    fields.zip (front ++ rest) = (fields.take front.length).zip front ++
      (key :: fields.drop (front.length + 1)).zip rest := by
  have hlt := (List.getElem?_eq_some_iff.mp h).1
  conv_lhs => rw [fields_eq h]
  exact List.zip_append (by rw [List.length_take]; omega)

theorem WritesOut.grown (h : WritesOut fields key d before after) (hnodup : fields.Nodup)
    (R : String → Value → Value → Prop) :
    Option.Rel (Record.Grown R key d) (before.record? fields) (after.record? fields) := by
  cases h with
  | member h =>
    rw [record?_object, record?_object]
    exact Record.grown_named? R (fun _ => rfl) rfl h
  | @item items h =>
    have hlt := (List.getElem?_eq_some_iff.mp h).1
    have hshort := zip_append h []
    have hlong := zip_append h [d]
    rw [List.append_nil, List.zip_nil_right] at hshort
    rw [List.zip_cons_cons, List.zip_nil_right] at hlong
    rw [record?_array_of_le (by omega),
      record?_array_of_le (by rw [List.length_append, List.length_singleton]; omega), hshort, hlong]
    refine .some (.gained (Record.lacks_iff.mpr ?_))
    rw [List.append_nil]
    -- the fields before `key` are other ones
    rintro m hm rfl
    have hbefore := (List.of_mem_zip hm).1
    rw [fields_eq h] at hnodup
    exact (List.nodup_append.mp hnodup).2.2 _ hbefore _ List.mem_cons_self rfl

theorem Exchanges.grown (h : Exchanges fields key u u' before after)
    {R : String → Value → Value → Prop} (hrefl : ∀ k v, R k v v) (hu : R key u u') (d : Value) :
    Option.Rel (Record.Grown R key d) (before.record? fields) (after.record? fields) := by
  refine Record.rel_within ?_
  cases h with
  | member =>
    rw [record?_object, record?_object]
    have hsame (m : Option String × Value) :
        id m.1 = id m.1 ∧ ∀ name, id m.1 = some name → R name m.2 m.2 :=
      ⟨rfl, fun _ _ => hrefl _ _⟩
    refine Record.rel_named? (List.rel_append (List.forall₂_same.mpr fun m _ => hsame m)
      (.cons ⟨rfl, ?_⟩ (List.forall₂_same.mpr fun m _ => hsame m)))
    rintro name ⟨⟩
    exact hu
  | @item front rest h =>
    have hsame (m : String × Value) : Record.Matching R m m := ⟨rfl, hrefl _ _⟩
    have hlength : (front ++ u' :: rest).length = (front ++ u :: rest).length := by simp
    rw [record?, record?, hlength, zip_append h, zip_append h, List.zip_cons_cons,
      List.zip_cons_cons]
    split
    case isFalse => exact .none
    case isTrue =>
      exact .some (List.rel_append (List.forall₂_same.mpr fun m _ => hsame m)
        (.cons ⟨rfl, hu⟩ (List.forall₂_same.mpr fun m _ => hsame m)))

/-- The record `v`, if it is one, leaves out the field `key`. -/
def Omits (fields : List String) (key : String) (v : Value) : Prop :=
  ∀ members, v.record? fields = some members → Record.Lacks key members

/-- The record `v` has the value `u` in the field `key`. -/
def Holds (fields : List String) (key : String) (v u : Value) : Prop :=
  ∃ members, v.record? fields = some members ∧ (key, u) ∈ members

end Json.Value

open Json (Value)

theorem Filter.ofJson?_toJson {f : Filter Float}
    (h : ∀ sigma, f = .gaussian sigma → sigma.isFinite = true) : ofJson? f.toJson = some f := by
  cases f with
  | gaussian sigma =>
    have hsigma := Value.double?_ofFloat (h sigma rfl)
    change ofMember? ("gaussian", _) = _
    simp [ofMember?, Record.required, Record.valuesOf_cons, hsigma]
  | _ => rfl

namespace SharpenSettings

/-- The fields of a record of sharpening, in order. -/
def fields : List String := ["amount", "radius", "threshold"]

theorem ofJson?_toJson {s : SharpenSettings Float} (h : s.radius.isFinite = true) :
    ofJson? s.toJson = some s := by
  have hradius := Value.double?_ofFloat h
  simp [ofJson?, toJson, Record.required, Record.optional, Record.valuesOf_cons, hradius]

theorem ofJson?_off : ofJson? (off : SharpenSettings Float).toJson = some off :=
  ofJson?_toJson (by decide)

/-- The threshold may be left out. -/
theorem ofJson?_writesOut {u u' : Value}
    (h : Value.WritesOut fields "threshold" (.integer 0) u u') : ofJson? u' = ofJson? u := by
  refine Record.bind_eq_of_rel (h.grown (by decide) fun _ => Eq) fun ms ms' hms => ?_
  have hrefl (k : String) (v : Value) : v = v := rfl
  have hread {β : Type} (read : Value → Option β) (v v' : Value) (hv : v = v') :
      read v' = read v := by rw [hv]
  have hthreshold : Record.optional "threshold" Value.byte? 0 ms' =
      Record.optional "threshold" Value.byte? 0 ms :=
    hms.optional_eq hrefl (hread _) fun _ => rfl
  rw [hms.required_eq hrefl (hread _) (by decide), hms.required_eq hrefl (hread _) (by decide),
    hthreshold]

theorem ofJson?_eq_none {u : Value} (h : u.Omits fields "amount" ∨ u.Omits fields "radius") :
    ofJson? u = none := by
  refine Option.bind_eq_none_iff.mpr fun ms hms => ?_
  rcases h with h | h
  · simp [(h ms hms).required_eq]
  · simp [(h ms hms).required_eq]

end SharpenSettings

namespace Settings

/-- The fields of a record of settings, in order. -/
def fields : List String := ["width", "height", "filter", "blur", "unsharp"]

/-- The fields of settings that may be left out, with what they are then. -/
def jsonDefaults : List (String × Value) := [
  ("filter", (default : Filter Float).toJson),
  ("blur", .ofFloat 1.0),
  ("unsharp", (SharpenSettings.off : SharpenSettings Float).toJson)]

/-- `after` is the document `before` with a default in it, that of one of its own fields or that
of the threshold in its sharpening. -/
inductive SpellsOutJson (before after : Value) : Prop where
  | field {key : String} {d : Value} (hd : (key, d) ∈ jsonDefaults)
      (h : Value.WritesOut fields key d before after)
  | threshold {u u' : Value}
      (hu : Value.WritesOut SharpenSettings.fields "threshold" (.integer 0) u u')
      (h : Value.Exchanges fields "unsharp" u u' before after)

/-- The floats of settings are numbers. -/
structure AllFinite (s : Settings Float) : Prop where
  sigma : ∀ sigma, s.filter = .gaussian sigma → sigma.isFinite = true
  blur : s.blur.isFinite = true
  radius : s.sharpen.radius.isFinite = true

theorem ofJson?_toJson {s : Settings Float} (h : s.AllFinite) : ofJson? s.toJson = some s := by
  have hfilter := Filter.ofJson?_toJson h.sigma
  have hblur := Value.double?_ofFloat h.blur
  have hsharpen := SharpenSettings.ofJson?_toJson h.radius
  simp [ofJson?, toJson, Record.required, Record.optional, Record.valuesOf_cons, hfilter, hblur,
    hsharpen]

/-- Two values of a field that settings cannot tell apart. -/
def Alike (k : String) (u u' : Value) : Prop :=
  u = u' ∨ k = "unsharp" ∧ SharpenSettings.ofJson? u' = SharpenSettings.ofJson? u

/-- What is read as settings depends on what the fields are read as, and not on the defaults that
are written out. -/
theorem ofJson?_of_grown {v v' d : Value} {key : String} (hd : (key, d) ∈ jsonDefaults)
    (h : Option.Rel (Record.Grown Alike key d) (v.record? fields) (v'.record? fields)) :
    ofJson? v' = ofJson? v := by
  refine Record.bind_eq_of_rel h fun ms ms' hms => ?_
  have hrefl (k : String) (u : Value) : Alike k u u := .inl rfl
  have hread {β : Type} {k : String} (hk : k ≠ "unsharp") (read : Value → Option β) (u u' : Value)
      (hu : Alike k u u') : read u' = read u := by
    rcases hu with rfl | ⟨hkey, -⟩
    · rfl
    · exact absurd hkey hk
  have hsize : "width" ≠ key ∧ "height" ≠ key := by
    constructor <;> rintro rfl <;> simp [jsonDefaults] at hd
  have hwidth : Record.required "width" Value.word? ms' = Record.required "width" Value.word? ms :=
    hms.required_eq hrefl (hread (by decide) _) hsize.1
  have hheight :
      Record.required "height" Value.word? ms' = Record.required "height" Value.word? ms :=
    hms.required_eq hrefl (hread (by decide) _) hsize.2
  have hfilter : Record.optional "filter" Filter.ofJson? default ms' =
      Record.optional "filter" Filter.ofJson? default ms := by
    refine hms.optional_eq hrefl (hread (by decide) _) ?_
    rintro rfl
    obtain rfl : d = _ := by simpa [jsonDefaults] using hd
    exact Filter.ofJson?_toJson nofun
  have hblur : Record.optional "blur" Value.double? 1.0 ms' =
      Record.optional "blur" Value.double? 1.0 ms := by
    refine hms.optional_eq hrefl (hread (by decide) _) ?_
    rintro rfl
    obtain rfl : d = _ := by simpa [jsonDefaults] using hd
    exact Value.double?_ofFloat (by decide)
  have hsharpen : Record.optional "unsharp" SharpenSettings.ofJson? .off ms' =
      Record.optional "unsharp" SharpenSettings.ofJson? .off ms := by
    refine hms.optional_eq hrefl (fun u u' hu => ?_) ?_
    · rcases hu with rfl | ⟨-, hu⟩
      · rfl
      · exact hu
    · rintro rfl
      obtain rfl : d = _ := by simpa [jsonDefaults] using hd
      exact SharpenSettings.ofJson?_off
  rw [hwidth, hheight, hfilter, hblur, hsharpen]

theorem SpellsOutJson.ofJson?_eq {v v' : Value} (h : SpellsOutJson v v') :
    ofJson? v' = ofJson? v := by
  cases h with
  | field hd h => exact ofJson?_of_grown hd (h.grown (by decide) Alike)
  | threshold hu h =>
    have hmem : ("unsharp", (.off : SharpenSettings Float).toJson) ∈ jsonDefaults := by
      simp [jsonDefaults]
    exact ofJson?_of_grown hmem
      (h.grown (fun _ _ => .inl rfl) (.inr ⟨rfl, SharpenSettings.ofJson?_writesOut hu⟩) _)

theorem ofJson?_eq_none {v : Value} (h : v.Omits fields "width" ∨ v.Omits fields "height") :
    ofJson? v = none := by
  refine Option.bind_eq_none_iff.mpr fun ms hms => ?_
  rcases h with h | h
  · simp [(h ms hms).required_eq]
  · simp [(h ms hms).required_eq]

/-- Sharpening that cannot be read makes settings that cannot be read. -/
theorem ofJson?_eq_none_of_holds {v u : Value} (h : v.Holds fields "unsharp" u)
    (hu : SharpenSettings.ofJson? u = none) : ofJson? v = none := by
  obtain ⟨ms, hms, hmem⟩ := h
  have hsharpen := Record.optional_eq_none hmem hu .off
  rw [ofJson?, show v.record? ["width", "height", "filter", "blur", "unsharp"] = some ms from hms]
  simp [hsharpen]

end Settings

end Resampler
