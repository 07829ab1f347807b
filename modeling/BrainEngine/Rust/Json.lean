import BrainEngine.Rust.Str
import Mathlib.Data.List.Forall2

/-! # JSON values of `serde_json` -/

namespace BrainEngine.Rust.Json

open BrainEngine.Rust.Str

/-- A float goes by its bits. -/
inductive Number
  | posInt (n : UInt64)
  | negInt (n : Int64)
  | float (bits : UInt64)

/-- The fields of an object are a map: no key occurs twice. -/
inductive Value
  | null
  | bool (b : Bool)
  | number (n : Number)
  | string (s : Text)
  | array (items : List Value)
  | object (fields : List (Text × Value))

/-- The field of an object. -/
def Value.get (key : String) : Value → Option Value
  | .object fields => fields.lookup key.toList
  | _ => none

def Value.asStr : Value → Option Text
  | .string s => some s
  | _ => none

def Value.asU64 : Value → Option UInt64
  | .number (.posInt n) => some n
  | _ => none

def Value.asArray : Value → Option (List Value)
  | .array items => some items
  | _ => none

def Value.isObject : Value → Bool
  | .object _ => true
  | _ => false

/-- `get`, and the text that is there. -/
def Value.getStr (key : String) (v : Value) : Option Text := (v.get key).bind Value.asStr

/-! ### Fields -/

/-- `Map::insert`. -/
def insertField (key : Text) (v : Value) : List (Text × Value) → List (Text × Value)
  | [] => [(key, v)]
  | field :: fields =>
    if field.1 = key then (key, v) :: fields else field :: insertField key v fields

theorem lookup_insertField (key k : Text) (v : Value) (fields : List (Text × Value)) :
    (insertField key v fields).lookup k = if k = key then some v else fields.lookup k := by
  induction fields with
  | nil =>
    rw [insertField, List.lookup_cons]
    split_ifs with h
    · rw [h, beq_self_eq_true]
    · rw [beq_false_of_ne h]
  | cons field fields ih =>
    rw [insertField]
    by_cases hf : field.1 = key
    · rw [if_pos hf, List.lookup_cons, List.lookup_cons, hf]
      split_ifs with h
      · rw [h, beq_self_eq_true]
      · rw [beq_false_of_ne h]
    · rw [if_neg hf, List.lookup_cons, List.lookup_cons, ih]
      split_ifs with h
      · subst h
        rw [beq_false_of_ne (Ne.symm hf)]
      · rfl

section
variable {α β : Type} {l : List (Text × α)} {key : Text} {a : α}

theorem lookup_map_snd (f : α → β) : (l.map fun e => (e.1, f e.2)).lookup key = (l.lookup key).map f := by
  induction l with
  | nil => rfl
  | cons e l ih =>
    rw [List.map_cons, List.lookup_cons, List.lookup_cons, ih]
    cases key == e.1 with
    | true => rfl
    | false => rfl

theorem lookup_filter_snd {p : α → Bool} (h : l.lookup key = some a) (hp : p a = true) :
    (l.filter fun e => p e.2).lookup key = some a := by
  induction l with
  | nil => cases h
  | cons e l ih =>
    rw [List.lookup_cons] at h
    cases hk : key == e.1 with
    | true =>
      rw [hk] at h
      obtain rfl : e.2 = a := Option.some.inj h
      rw [List.filter_cons, if_pos hp, List.lookup_cons, hk]
    | false =>
      rw [hk] at h
      have hrest := ih h
      by_cases he : p e.2 = true
      · rw [List.filter_cons, if_pos he, List.lookup_cons, hk]
        exact hrest
      · rw [List.filter_cons, if_neg he]
        exact hrest

theorem lookup_mapM_snd {f : α → Option β} {l' : List (Text × β)}
    (h : (l.mapM fun e => (f e.2).map (e.1, ·)) = some l') (ha : l.lookup key = some a) :
    ∃ b, f a = some b ∧ l'.lookup key = some b := by
  induction l generalizing l' with
  | nil => cases ha
  | cons e l ih =>
    rw [List.mapM_cons] at h
    obtain ⟨d, hd, hl⟩ := Option.bind_eq_some_iff.mp h
    obtain ⟨r, hr, hcons⟩ := Option.bind_eq_some_iff.mp hl
    obtain ⟨b, hb, rfl⟩ := Option.map_eq_some_iff.mp hd
    obtain rfl : (e.1, b) :: r = l' := Option.some.inj hcons
    rw [List.lookup_cons] at ha ⊢
    cases hk : key == e.1 with
    | true =>
      rw [hk] at ha
      obtain rfl : e.2 = a := Option.some.inj ha
      exact ⟨b, hb, rfl⟩
    | false =>
      rw [hk] at ha
      exact ih hr ha

end

/-! ### Values up to their numbers -/

/-- The same value up to its numbers: what is read back from a text it was written as. -/
inductive Alike : Value → Value → Prop
  | null : Alike .null .null
  | bool (b : Bool) : Alike (.bool b) (.bool b)
  | number (m n : Number) : Alike (.number m) (.number n)
  | string (s : Text) : Alike (.string s) (.string s)
  | array {xs ys : List Value} (h : List.Forall₂ Alike xs ys) : Alike (.array xs) (.array ys)
  | object {f g : List (Text × Value)} (h : ∀ key, Option.Rel Alike (f.lookup key) (g.lookup key)) :
    Alike (.object f) (.object g)

theorem sizeOf_lookup_lt {key : Text} {v : Value} {fields : List (Text × Value)}
    (h : fields.lookup key = some v) : sizeOf v < sizeOf fields := by
  obtain ⟨l, r, rfl, -⟩ := List.lookup_eq_some_iff.mp h
  have hlt := List.sizeOf_lt_of_mem (List.mem_append_right l (List.mem_cons_self (a := (key, v)) (l := r)))
  rw [Prod.mk.sizeOf_spec] at hlt
  omega

theorem Alike.refl (v : Value) : Alike v v := by
  match v with
  | .null => exact .null
  | .bool b => exact .bool b
  | .number n => exact .number n n
  | .string s => exact .string s
  | .array xs => exact .array (List.forall₂_same.mpr fun x _ => Alike.refl x)
  | .object fields =>
    refine .object fun key => ?_
    cases h : fields.lookup key with
    | none => exact .none
    | some w =>
      have := sizeOf_lookup_lt h
      exact .some (Alike.refl w)

variable {v w : Value}

theorem Alike.get (h : Alike v w) (key : String) : Option.Rel Alike (v.get key) (w.get key) := by
  cases h with
  | object h => exact h key.toList
  | _ => exact .none

theorem Alike.asStr (h : Alike v w) : v.asStr = w.asStr := by
  cases h <;> rfl

theorem Alike.isObject (h : Alike v w) : v.isObject = w.isObject := by
  cases h <;> rfl

theorem Alike.get_some {a : Value} {key : String} (h : Alike v w) (ha : v.get key = some a) :
    ∃ b, w.get key = some b ∧ Alike a b := by
  have hrel := h.get key
  rw [ha] at hrel
  rcases hb : w.get key with _ | b
  · rw [hb] at hrel
    cases hrel
  · rw [hb] at hrel
    cases hrel with
    | some hab => exact ⟨b, rfl, hab⟩

theorem Alike.eq_array {xs : List Value} (h : Alike (.array xs) w) :
    ∃ ys, w = .array ys ∧ List.Forall₂ Alike xs ys := by
  cases h with
  | array h => exact ⟨_, rfl, h⟩

theorem Alike.eq_string {s : Text} (h : Alike (.string s) w) : w = .string s := by
  cases h
  rfl

theorem exists_of_mem_forall₂ {xs ys : List Value} (h : List.Forall₂ Alike xs ys) (hv : v ∈ xs) :
    ∃ w ∈ ys, Alike v w := by
  induction h with
  | nil => exact absurd hv List.not_mem_nil
  | cons hab _ ih =>
    rcases List.mem_cons.mp hv with rfl | hv
    · exact ⟨_, List.mem_cons_self, hab⟩
    · obtain ⟨w, hw, hvw⟩ := ih hv
      exact ⟨w, List.mem_cons_of_mem _ hw, hvw⟩

theorem bind_eq_of_rel {α β : Type} {R : α → α → Prop} {a b : Option α} {f : α → Option β}
    (h : Option.Rel R a b) (hf : ∀ x y, R x y → f x = f y) : a.bind f = b.bind f := by
  cases h with
  | none => rfl
  | some h => exact hf _ _ h

theorem Alike.getStr (h : Alike v w) (key : String) : v.getStr key = w.getStr key :=
  bind_eq_of_rel (h.get key) fun _ _ hab => hab.asStr

end BrainEngine.Rust.Json
