import AggregateSchema.Binary64
import AggregateSchema.Text.Int64

/-! JSON values. Integers and floating-point numbers are different values, and the fields of an object
are sorted by key. -/
namespace AggregateSchema

inductive Json where
  | null
  | bool (b : Bool)
  | integer (n : Int)
  | float (x : Binary64)
  | string (s : String)
  | array (items : List Json)
  | object (fields : List (String × Json))
  deriving Repr, Inhabited

namespace Json

mutual
/-- Equality as values; floating-point numbers are compared as numbers. -/
def same : Json → Json → Bool
  | null, null => true
  | bool a, bool b => a == b
  | integer m, integer n => m == n
  | float x, float y => x.same y
  | string s, string t => s == t
  | array xs, array ys => sameItems xs ys
  | object xs, object ys => sameFields xs ys
  | _, _ => false

def sameItems : List Json → List Json → Bool
  | [], [] => true
  | x :: xs, y :: ys => same x y && sameItems xs ys
  | _, _ => false

def sameFields : List (String × Json) → List (String × Json) → Bool
  | [], [] => true
  | (k, x) :: xs, (l, y) :: ys => k == l && same x y && sameFields xs ys
  | _, _ => false
end

mutual
@[simp] theorem same_refl : ∀ v : Json, same v v = true
  | null => rfl
  | bool b => by simp [same]
  | integer n => by simp [same]
  | float x => by simp [same]
  | string s => by simp [same]
  | array xs => by rw [same, sameItems_refl xs]
  | object xs => by rw [same, sameFields_refl xs]

theorem sameItems_refl : ∀ xs : List Json, sameItems xs xs = true
  | [] => rfl
  | x :: xs => by rw [sameItems, same_refl x, sameItems_refl xs, Bool.and_self]

theorem sameFields_refl : ∀ xs : List (String × Json), sameFields xs xs = true
  | [] => rfl
  | (k, x) :: xs => by rw [sameFields, same_refl x, sameFields_refl xs, beq_self_eq_true,
      Bool.and_self, Bool.and_self]
end

mutual
theorem same_comm : ∀ v w : Json, same v w = same w v
  | null, w => by cases w <;> rfl
  | bool b, w => by cases w <;> simp [same, BEq.comm]
  | integer n, w => by cases w <;> simp [same, BEq.comm]
  | float x, w => by cases w <;> simp [same, Binary64.same_comm]
  | string s, w => by cases w <;> simp [same, BEq.comm]
  | array xs, w => by
    cases w with
    | array ys => rw [same, same, sameItems_comm xs ys]
    | _ => rfl
  | object xs, w => by
    cases w with
    | object ys => rw [same, same, sameFields_comm xs ys]
    | _ => rfl

theorem sameItems_comm : ∀ xs ys : List Json, sameItems xs ys = sameItems ys xs
  | [], ys => by cases ys <;> rfl
  | x :: xs, ys => by
    cases ys with
    | nil => rfl
    | cons y ys => rw [sameItems, sameItems, same_comm x y, sameItems_comm xs ys]

theorem sameFields_comm : ∀ xs ys : List (String × Json), sameFields xs ys = sameFields ys xs
  | [], ys => by cases ys <;> rfl
  | (k, x) :: xs, ys => by
    cases ys with
    | nil => rfl
    | cons f ys => rw [sameFields, sameFields, same_comm x f.2, sameFields_comm xs ys, BEq.comm]
end

mutual
theorem same_trans : ∀ {u v w : Json}, same u v = true → same v w = true → same u w = true
  | null, null, _, _, k => k
  | bool a, bool b, bool c, h, k => by simp_all [same]
  | integer m, integer n, integer o, h, k => by simp_all [same]
  | float x, float y, float z, h, k => Binary64.same_trans h k
  | string s, string t, string r, h, k => by simp_all [same]
  | array xs, array ys, array zs, h, k => by
    rw [same] at *
    exact sameItems_trans h k
  | object xs, object ys, object zs, h, k => by
    rw [same] at *
    exact sameFields_trans h k

theorem sameItems_trans : ∀ {xs ys zs : List Json}, sameItems xs ys = true →
    sameItems ys zs = true → sameItems xs zs = true
  | [], [], _, _, k => k
  | x :: xs, y :: ys, z :: zs, h, k => by
    rw [sameItems, Bool.and_eq_true] at *
    exact ⟨same_trans h.1 k.1, sameItems_trans h.2 k.2⟩

theorem sameFields_trans : ∀ {xs ys zs : List (String × Json)}, sameFields xs ys = true →
    sameFields ys zs = true → sameFields xs zs = true
  | [], [], _, _, k => k
  | (a, x) :: xs, (b, y) :: ys, (c, z) :: zs, h, k => by
    rw [sameFields, Bool.and_eq_true, Bool.and_eq_true, beq_iff_eq] at *
    exact ⟨⟨h.1.1.trans k.1.1, same_trans h.1.2 k.1.2⟩, sameFields_trans h.2 k.2⟩
end

/-- Sets one field in a list of fields sorted by key. -/
def insertField (key : String) (value : Json) : List (String × Json) → List (String × Json)
  | [] => [(key, value)]
  | (k, v) :: rest =>
    if key < k then (key, value) :: (k, v) :: rest
    else if key = k then (key, value) :: rest
    else (k, v) :: insertField key value rest

/-- The object with the given fields; a later field replaces an earlier one of its key. -/
def ofFields (fields : List (String × Json)) : Json :=
  object (fields.foldl (fun sorted f => insertField f.1 f.2 sorted) [])

theorem lookup_insertField (key other : String) (value : Json) (fields : List (String × Json)) :
    (insertField key value fields).lookup other =
      if other = key then some value else fields.lookup other := by
  induction fields with
  | nil =>
    by_cases h : other = key
    · simp [insertField, h]
    · simp [insertField, List.lookup_cons, h, beq_eq_false_iff_ne.2 h]
  | cons f rest ih =>
    obtain ⟨k, v⟩ := f
    rw [insertField]
    split
    · by_cases h : other = key
      · simp [h]
      · simp [List.lookup_cons, h, beq_eq_false_iff_ne.2 h]
    · split
      · rename_i h
        subst h
        by_cases h : other = key
        · simp [h]
        · simp [List.lookup_cons, h, beq_eq_false_iff_ne.2 h]
      · rename_i hne
        by_cases h : other = k
        · subst h
          simp [Ne.symm hne]
        · simp [List.lookup_cons, beq_eq_false_iff_ne.2 h, ih]

/-- The value of a field. Only an object has fields. -/
def get? : Json → String → Option Json
  | object fields, key => fields.lookup key
  | _, _ => none

/-- The value of a field, or null for an absent one. -/
def getD (v : Json) (key : String) : Json := (v.get? key).getD .null

def isNull : Json → Bool
  | null => true
  | _ => false

def isObject : Json → Bool
  | object _ => true
  | _ => false

/-- An integer in the range of 64 signed bits. -/
def int64? : Json → Option Int
  | integer n => if Text.inInt64 n then some n else none
  | _ => none

def bool? : Json → Option Bool
  | bool b => some b
  | _ => none

def string? : Json → Option String
  | string s => some s
  | _ => none

/-- The text, or null for no text. -/
def ofText? : Option String → Json
  | some s => string s
  | none => null

/-- The number, or null for no number. -/
def ofInt? : Option Int → Json
  | some n => integer n
  | none => null

def strings (texts : List String) : Json := array (texts.map string)

def ofNat (n : Nat) : Json := integer n

end Json

end AggregateSchema
