import Mathlib.Data.List.Forall2
import Resampler.Settings.Record

/-!
Records with a field written out.

What a field of a record is depends on the values that stand under its key and on nothing else. So
it is the same in a record that has one more member under another key, or that has other values
which read as the same (`Grown`). A field with a default is also the same if its default is
the one more member, and a field without one cannot be left out.
-/

namespace Resampler.Record

variable {V β : Type} {key k : String} {d : V} {before after : List (String × V)}

/-- No member has the key. -/
def Lacks (key : String) (members : List (String × V)) : Prop := valuesOf key members = []

@[simp] theorem valuesOf_nil (k : String) : valuesOf k ([] : List (String × V)) = [] := rfl

theorem valuesOf_cons (k : String) (m : String × V) (ms : List (String × V)) :
    valuesOf k (m :: ms) = if m.1 = k then m.2 :: valuesOf k ms else valuesOf k ms := by
  simp only [valuesOf, List.filter_cons, beq_iff_eq]
  split <;> simp

theorem valuesOf_append (k : String) (ms ms' : List (String × V)) :
    valuesOf k (ms ++ ms') = valuesOf k ms ++ valuesOf k ms' := by
  simp [valuesOf]

theorem lacks_iff {members : List (String × V)} : Lacks key members ↔ ∀ m ∈ members, m.1 ≠ key := by
  simp [Lacks, valuesOf, List.filter_eq_nil_iff]

theorem Lacks.required_eq {members : List (String × V)} (h : Lacks key members)
    (read : V → Option β) : required key read members = none := by
  rw [required, h]

/-- A value that cannot be read is not passed over. -/
theorem optional_eq_none {members : List (String × V)} {v : V} {read : V → Option β}
    (h : (k, v) ∈ members) (hread : read v = none) (default : β) :
    optional k read default members = none := by
  have hv : v ∈ valuesOf k members := by
    rw [valuesOf, List.mem_map]
    exact ⟨(k, v), List.mem_filter.mpr ⟨h, beq_self_eq_true k⟩, rfl⟩
  rw [optional]
  match hvalues : valuesOf k members with
  | [] =>
    rw [hvalues] at hv
    cases hv
  | [w] =>
    rw [hvalues, List.mem_singleton] at hv
    rw [← hv]
    exact hread
  | _ :: _ :: _ => rfl

variable {R : String → V → V → Prop}

/-- Two members of one name, with values that `R` admits under it. -/
structure Matching (R : String → V → V → Prop) (m m' : String × V) : Prop where
  name_eq : m.1 = m'.1
  value : R m.1 m.2 m'.2

/-- `after` has the members of `before`, either with values in the place of theirs that `R` admits
under their keys, or with one more, under a key that none of them has. -/
inductive Grown (R : String → V → V → Prop) (key : String) (d : V) :
    List (String × V) → List (String × V) → Prop where
  | within {before after : List (String × V)} (h : List.Forall₂ (Matching R) before after) :
      Grown R key d before after
  | gained {front rest : List (String × V)} (h : Lacks key (front ++ rest)) :
      Grown R key d (front ++ rest) (front ++ (key, d) :: rest)

theorem forall₂_valuesOf (h : List.Forall₂ (Matching R) before after) (k : String) :
    List.Forall₂ (R k) (valuesOf k before) (valuesOf k after) := by
  induction h with
  | nil => exact .nil
  | @cons m m' ms ms' hm _ ih =>
    obtain ⟨hkey, hvalue⟩ := hm
    rw [valuesOf_cons, valuesOf_cons, ← hkey]
    split
    case isTrue heq =>
      subst heq
      exact .cons hvalue ih
    case isFalse => exact ih

section Reading

variable (hrefl : ∀ k v, R k v v) {read read' : V → Option β} {default : β}
  (hread : ∀ v v', R k v v' → read' v' = read v)

include hread in
theorem required_congr (h : List.Forall₂ (R k) (valuesOf k before) (valuesOf k after)) :
    required k read' after = required k read before := by
  unfold required
  generalize valuesOf k before = vs at h ⊢
  generalize valuesOf k after = vs' at h ⊢
  cases h with
  | nil => rfl
  | cons hv hrest =>
    cases hrest with
    | nil => exact hread _ _ hv
    | cons => rfl

include hread in
theorem optional_congr (h : List.Forall₂ (R k) (valuesOf k before) (valuesOf k after)) :
    optional k read' default after = optional k read default before := by
  unfold optional
  generalize valuesOf k before = vs at h ⊢
  generalize valuesOf k after = vs' at h ⊢
  cases h with
  | nil => rfl
  | cons hv hrest =>
    cases hrest with
    | nil => exact hread _ _ hv
    | cons => rfl

namespace Grown

variable (h : Grown R key d before after)
include h hrefl

/-- Under other keys there are the same values as before, up to `R`. -/
theorem forall₂_valuesOf_of_ne (hk : k ≠ key) :
    List.Forall₂ (R k) (valuesOf k before) (valuesOf k after) := by
  cases h with
  | within h => exact forall₂_valuesOf h k
  | gained h =>
    rw [valuesOf_append, valuesOf_append, valuesOf_cons, if_neg (Ne.symm hk)]
    exact List.forall₂_same.mpr fun v _ => hrefl k v

include hread

theorem required_eq (hk : k ≠ key) : required k read' after = required k read before :=
  required_congr hread (h.forall₂_valuesOf_of_ne hrefl hk)

/-- A field with a default is kept, also if it is its default that was gained. -/
theorem optional_eq (hd : k = key → read' d = some default) :
    optional k read' default after = optional k read default before := by
  by_cases hk : k = key
  · subst hk
    cases h with
    | within h => exact optional_congr hread (forall₂_valuesOf h k)
    | @gained front rest h =>
      have hall := h
      rw [Lacks, valuesOf_append, List.append_eq_nil_iff] at hall
      have hone : valuesOf k (front ++ (k, d) :: rest) = [d] := by
        rw [valuesOf_append, valuesOf_cons, if_pos rfl, hall.1, hall.2, List.nil_append]
      rw [optional, optional, hone, h]
      exact hd rfl
  · exact optional_congr hread (h.forall₂_valuesOf_of_ne hrefl hk)

end Grown

end Reading

/-! The members of a document have the names that can be read off their keys. -/

variable {K : Type}

def named? (name? : K → Option String) (entries : List (K × V)) : Option (List (String × V)) :=
  entries.mapM fun e => (name? e.1).map (·, e.2)

theorem named?_cons (name? : K → Option String) (e : K × V) (es : List (K × V)) :
    named? name? (e :: es) =
      (name? e.1).bind fun k => (named? name? es).map ((k, e.2) :: ·) := by
  rw [named?, List.mapM_cons, named?]
  cases name? e.1 <;> cases List.mapM (fun e => (name? e.1).map (·, e.2)) es <;> rfl

theorem named?_append (name? : K → Option String) (es es' : List (K × V)) :
    named? name? (es ++ es') =
      (named? name? es).bind fun ms => (named? name? es').map (ms ++ ·) := by
  rw [named?, List.mapM_append, named?, named?]
  cases List.mapM (fun e => (name? e.1).map (·, e.2)) es <;>
    cases List.mapM (fun e => (name? e.1).map (·, e.2)) es' <;> rfl

theorem lacks_of_named? {name? : K → Option String} {entries : List (K × V)}
    {members : List (String × V)} (h : named? name? entries = some members)
    (hkey : ∀ e ∈ entries, name? e.1 ≠ some key) : Lacks key members := by
  induction entries generalizing members with
  | nil =>
    cases h
    rfl
  | cons e es ih =>
    rw [named?_cons, Option.bind_eq_some_iff] at h
    obtain ⟨k, hk, h⟩ := h
    obtain ⟨ms, hms, rfl⟩ := Option.map_eq_some_iff.mp h
    have hne : k ≠ key := by
      rintro rfl
      exact hkey e List.mem_cons_self hk
    rw [Lacks, valuesOf_cons, if_neg hne]
    exact ih hms fun e' he' => hkey e' (List.mem_cons_of_mem e he')

variable {name? name?' : K → Option String}

/-- Entries whose keys have the same names make members with the same names. -/
theorem rel_named? {es es' : List (K × V)}
    (h : List.Forall₂ (fun e e' => name?' e'.1 = name? e.1 ∧
      ∀ k, name? e.1 = some k → R k e.2 e'.2) es es') :
    Option.Rel (List.Forall₂ (Matching R)) (named? name? es) (named? name?' es') := by
  induction h with
  | nil => exact .some .nil
  | @cons e e' es es' he _ ih =>
    obtain ⟨hname, hvalue⟩ := he
    rw [named?_cons, named?_cons, hname]
    cases hk : name? e.1 with
    | none => exact .none
    | some k =>
      generalize named? name? es = ms at ih ⊢
      generalize named? name?' es' = ms' at ih ⊢
      cases ih with
      | none => exact .none
      | some ih => exact .some (.cons ⟨rfl, hvalue k hk⟩ ih)

/-- An entry gained is a member gained, if there are members at all. -/
theorem grown_named? {front rest : List (K × V)} {keyed : K} (R : String → V → V → Prop)
    (hname : ∀ k, name?' k = name? k) (hkeyed : name? keyed = some key)
    (hkey : ∀ e ∈ front ++ rest, name? e.1 ≠ some key) :
    Option.Rel (Grown R key d) (named? name? (front ++ rest))
      (named? name?' (front ++ (keyed, d) :: rest)) := by
  obtain rfl : name?' = name? := funext hname
  have hlacks (ms : List (String × V)) (hms : named? name?' (front ++ rest) = some ms) :
      Lacks key ms := lacks_of_named? hms hkey
  rw [named?_append] at hlacks ⊢
  rw [named?_append, named?_cons, hkeyed, Option.bind_some]
  cases hfront : named? name?' front with
  | none => exact .none
  | some ms =>
    cases hrest : named? name?' rest with
    | none => exact .none
    | some ms' => exact .some (.gained (hlacks (ms ++ ms') (by rw [hfront, hrest]; rfl)))

theorem rel_within {ms ms' : Option (List (String × V))}
    (h : Option.Rel (List.Forall₂ (Matching R)) ms ms') :
    Option.Rel (Grown R key d) ms ms' := by
  cases h with
  | none => exact .none
  | some h => exact .some (.within h)

theorem rel_bind {γ γ' δ δ' : Type} {S : γ → γ' → Prop} {T : δ → δ' → Prop} {x : Option γ}
    {x' : Option γ'} (h : Option.Rel S x x') {f : γ → Option δ} {f' : γ' → Option δ'}
    (hf : ∀ a a', S a a' → Option.Rel T (f a) (f' a')) : Option.Rel T (x.bind f) (x'.bind f') := by
  cases h with
  | none => exact .none
  | some h => exact hf _ _ h

/-- What is made of members is the same if it is the same of related ones. -/
theorem bind_eq_of_rel {γ δ : Type} {S : γ → δ → Prop} {x : Option γ} {x' : Option δ}
    (h : Option.Rel S x x') {f : γ → Option β} {f' : δ → Option β}
    (hf : ∀ a a', S a a' → f' a' = f a) : x'.bind f' = x.bind f := by
  cases h with
  | none => rfl
  | some h => exact hf _ _ h

end Resampler.Record
