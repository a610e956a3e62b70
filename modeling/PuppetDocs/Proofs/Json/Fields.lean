import PuppetDocs.Model.Json

/-
  PuppetDocs.Proofs.Json.Fields — the fields of a written record, read back one at a time.

  A written record is a list of fields put together from required ones, optional ones and
  lists; a reader looks each field up by its name. So reading back is a matter of one field at
  a time: `get?_append` and its neighbours find what was written under a name, and
  `Faithful.optional` and `Faithful.leftOut` take the value, or the lack of one, back to what
  it was written from. An optional field needs that no value is written as `null`, which would
  read as no value; a field that is left out needs that what stands for it is what was left
  out.
-/

namespace PuppetDocs.Json

variable {α β : Type}

/-- A writer and a reader that belong together. -/
structure Faithful (write : α → Json) (read : Json → Option α) : Prop where
  back (a : α) : read (write a) = some a
  present (a : α) : write a ≠ .null

/-! ## Plain values and lists -/

theorem mapM_of_back {write : α → β} {read : β → Option α} {as : List α} (h : ∀ a ∈ as, read (write a) = some a) :
    (as.map write).mapM read = some as := by
  induction as with
  | nil => rfl
  | cons a as ih =>
    have head := h a (by simp)
    have rest := ih fun b hb => h b (by simp [hb])
    simp [head, rest]

theorem faithful_string : Faithful .string asString? where
  back _ := rfl
  present := nofun

theorem faithful_bool : Faithful .bool asBool? where
  back _ := rfl
  present := nofun

theorem asNat?_ofNat {n : Nat} (h : n < UInt64.size) : asNat? (.ofNat n) = some n :=
  if_pos ⟨Int.natCast_nonneg n, h⟩

theorem Faithful.list {write : α → Json} {read : Json → Option α} (h : Faithful write read) :
    Faithful (fun as => .array (as.map write)) (asList? read) where
  back _ := mapM_of_back fun a _ => h.back a
  present := nofun

theorem faithful_strings : Faithful ofStrings (asList? asString?) := faithful_string.list

/-! ## Finding a field -/

namespace Record

variable {fields others : List (String × Json)} {place : Nat} {key name : String}

@[simp] theorem get?_nil : (named []).get? place name = none := rfl

@[simp] theorem get?_cons {v : Json} :
    (named ((key, v) :: fields)).get? place name = if key = name then some v else (named fields).get? place name := by
  by_cases h : key = name <;> simp [get?, h]

@[simp] theorem get?_append :
    (named (fields ++ others)).get? place name =
      ((named fields).get? place name).or ((named others).get? place name) := by
  simp only [get?, List.find?_append]
  cases fields.find? fun f => f.1 == name <;> rfl

/-- A field that is left out in some cases. -/
@[simp] theorem get?_ite {skipped : Prop} [Decidable skipped] {v : Json} :
    (named (if skipped then [] else [(key, v)])).get? place name =
      if key = name then (if skipped then none else some v) else none := by
  by_cases h : skipped <;> by_cases k : key = name <;> simp [h, k]

@[simp] theorem get?_optionalField {write : α → Json} {o : Option α} :
    (named (optionalField write key o)).get? place name = if key = name then o.map write else none := by
  cases o with
  | none => simp [optionalField]
  | some a => by_cases h : key = name <;> simp [optionalField, h]

@[simp] theorem get?_listField {write : α → Json} {as : List α} :
    (named (listField write key as)).get? place name =
      if key = name then (if as.isEmpty then none else some (.array (as.map write))) else none :=
  get?_ite

end Record

/-! ## Reading a field back -/

theorem Record.required_eq {read : Json → Option α} {r : Record} {place : Nat} {name : String} {v : Json} {a : α}
    (h : read v = some a) (written : r.get? place name = some v) : r.required read place name = some a := by
  simp [Record.required, written, h]

namespace Faithful

variable {write : α → Json} {read : Json → Option α} {r : Record} {place : Nat} {name : String}

theorem required (h : Faithful write read) {a : α} (written : r.get? place name = some (write a)) :
    r.required read place name = some a :=
  Record.required_eq (h.back a) written

theorem optional (h : Faithful write read) {o : Option α} (written : r.get? place name = o.map write) :
    r.optional read place name = some o := by
  cases o with
  | none => simp [Record.optional, written]
  | some a =>
    have present := h.present a
    simp [Record.optional, written, h.back]

theorem orElse (h : Faithful write read) {missing a : α} (written : r.get? place name = some (write a)) :
    r.orElse read missing place name = some a := by
  simp [Record.orElse, written, h.back]

/-- A field that is left out only where the value that stands for it when missing is its own. -/
theorem leftOut (h : Faithful write read) {missing a : α} {skipped : Prop} [Decidable skipped]
    (default : skipped → a = missing)
    (written : r.get? place name = if skipped then none else some (write a)) :
    r.orElse read missing place name = some a := by
  by_cases hs : skipped
  · simp [Record.orElse, written, hs, default hs]
  · exact h.orElse (by rw [written, if_neg hs])

theorem items (h : Faithful write read) {l : List α}
    (written : r.get? place name = if l.isEmpty then none else some (.array (l.map write))) :
    r.orElse (asList? read) [] place name = some l :=
  h.list.leftOut List.isEmpty_iff.1 written

end Faithful

end PuppetDocs.Json
