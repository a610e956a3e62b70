/-
  PuppetDocs.Model.Dictionary — texts under distinct keys, in the order of their first entry.

  `insert` keeps the place of a key that is there already and replaces its text.
-/

namespace PuppetDocs

structure Dictionary where
  entries : List (String × String)
  nodup : (entries.map Prod.fst).Nodup
  deriving DecidableEq, Repr

namespace Dictionary

def empty : Dictionary := ⟨[], List.nodup_nil⟩

instance : Inhabited Dictionary := ⟨empty⟩

def isEmpty (d : Dictionary) : Bool := d.entries.isEmpty

def insertEntry (k v : String) : List (String × String) → List (String × String)
  | [] => [(k, v)]
  | e :: es => if e.1 = k then (k, v) :: es else e :: insertEntry k v es

theorem keys_insertEntry (k v : String) (es : List (String × String)) :
    (insertEntry k v es).map Prod.fst =
      if k ∈ es.map Prod.fst then es.map Prod.fst else es.map Prod.fst ++ [k] := by
  induction es with
  | nil => simp [insertEntry]
  | cons e es ih =>
    by_cases h : e.1 = k
    · simp [insertEntry, h]
    · by_cases hk : k ∈ es.map Prod.fst <;> simp_all [insertEntry, eq_comm]

def insert (d : Dictionary) (k v : String) : Dictionary where
  entries := insertEntry k v d.entries
  nodup := by
    rw [keys_insertEntry]
    split
    · exact d.nodup
    · next h => exact List.nodup_append.2 ⟨d.nodup, by simp, fun a ha b hb => by
        simp only [List.mem_singleton] at hb
        subst hb
        exact fun e => h (e ▸ ha)⟩

def get? (d : Dictionary) (k : String) : Option String := d.entries.lookup k

def ofList (es : List (String × String)) : Dictionary := es.foldl (fun d e => d.insert e.1 e.2) empty

end Dictionary

end PuppetDocs
