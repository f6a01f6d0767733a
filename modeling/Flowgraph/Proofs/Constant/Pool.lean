import Flowgraph.Proofs.Constant.Key
import Mathlib.Data.List.Nodup

/-! # The pool is canonical

The values of a pool are numbered in order, no two of them have one key, and their
parts are values of the pool too. Two values of such a pool are then equal as soon
as they are equal up to their numbers.
-/

namespace Flowgraph.Constant

namespace Value

/-! ## Values without numbers -/

mutual

/-- A value with all numbers taken away. What is left is the constant that it denotes. -/
def bare : Value → Value
  | null _ => null 0
  | bool _ b => bool 0 b
  | int _ n => int 0 n
  | double _ d => double 0 d
  | string _ s => string 0 s
  | symbol _ name => symbol 0 name
  | typeOf _ className => typeOf 0 className
  | list _ elements => list 0 (bareAll elements)
  | map _ keys values => map 0 (bareAll keys) (bareAll values)
  | object _ className fields => object 0 className (bareAll fields)
  | function _ f => function 0 f

def bareAll : List Value → List Value
  | [] => []
  | v :: rest => v.bare :: bareAll rest

end

@[simp] theorem bareAll_eq_map (vs : List Value) : bareAll vs = vs.map bare := by
  induction vs with
  | nil => rfl
  | cons v vs ih => rw [bareAll, ih, List.map_cons]

/-- The values that an aggregate is made of. -/
def parts : Value → List Value
  | list _ elements => elements
  | map _ keys values => keys ++ values
  | object _ _ fields => fields
  | _ => []

theorem sizeOf_lt_of_mem_parts {v x : Value} (h : x ∈ v.parts) : sizeOf x < sizeOf v := by
  cases v with
  | list i elements =>
    have : sizeOf x < sizeOf elements := List.sizeOf_lt_of_mem h
    simp only [list.sizeOf_spec]
    omega
  | map i keys values =>
    simp only [map.sizeOf_spec]
    rcases List.mem_append.mp h with h | h
    · have := List.sizeOf_lt_of_mem h
      omega
    · have := List.sizeOf_lt_of_mem h
      omega
  | object i className fields =>
    have : sizeOf x < sizeOf fields := List.sizeOf_lt_of_mem h
    simp only [object.sizeOf_spec]
    omega
  | _ => cases h

/-- What holds of a value if it holds of its parts holds of every value. -/
theorem induction_on_parts {P : Value → Prop} (h : ∀ v, (∀ x ∈ v.parts, P x) → P v) (v : Value) :
    P v :=
  h v fun x _ => induction_on_parts h x
termination_by v
decreasing_by exact sizeOf_lt_of_mem_parts (by assumption)

theorem map_bare_parts {v w : Value} (h : v.bare = w.bare) :
    v.parts.map bare = w.parts.map bare := by
  cases v <;> cases w <;> simp_all [bare, parts]

theorem key_eq_of_parts {v w : Value} (h : v.bare = w.bare) (hparts : v.parts = w.parts) :
    v.key = w.key := by
  cases v <;> cases w <;> simp_all [bare, parts, key]
  obtain ⟨hkeys, hvalues⟩ := List.append_inj hparts (by simpa using congrArg List.length h.1)
  simp [hkeys, hvalues]

theorem bare_eq_of_parts {v w : Value} (h : v.key = w.key) (hparts : v.parts = w.parts) :
    v.bare = w.bare := by
  cases v <;> cases w <;> simp_all [bare, parts, key]
  obtain ⟨hkeys, hvalues⟩ := List.append_inj hparts (by simpa using congrArg List.length h.1)
  simp [hkeys, hvalues]

theorem map_id_parts {v w : Value} (h : v.key = w.key) : v.parts.map id = w.parts.map id := by
  cases v <;> cases w <;> simp_all [parts, key]

end Value

/-! ## Requests -/

/-- A constant that a pool is asked for, given by its parts. -/
inductive Request
  | null
  | bool (value : Bool)
  | int (value : Int64)
  | double (value : Double)
  | string (value : String)
  | symbol (name : String)
  | typeOf (className : String)
  | list (elements : List Value)
  | map (keys values : List Value)
  | object (className : String) (fields : List Value)
  | function (function : Nat)

namespace Request

/-- The value under a number. -/
def make : Request → Nat → Value
  | null, id => .null id
  | bool b, id => .bool id b
  | int n, id => .int id n
  | double d, id => .double id d
  | string s, id => .string id s
  | symbol name, id => .symbol id name
  | typeOf className, id => .typeOf id className
  | list elements, id => .list id elements
  | map keys values, id => .map id keys values
  | object className fields, id => .object id className fields
  | function f, id => .function id f

variable (r : Request) (id : Nat)

def parts : List Value := (r.make 0).parts

/-- The constant that is asked for. -/
def bare : Value := (r.make 0).bare

def key : Key := (r.make 0).key

@[simp] theorem id_make : (r.make id).id = id := by cases r <;> rfl

@[simp] theorem parts_make : (r.make id).parts = r.parts := by cases r <;> rfl

@[simp] theorem bare_make : (r.make id).bare = r.bare := by cases r <;> rfl

@[simp] theorem key_make : (r.make id).key = r.key := by cases r <;> rfl

end Request

/-! ## Canonical pools -/

namespace Pool

structure Valid (p : Pool) : Prop where
  numbered : p.values.map Value.id = List.range' 1 p.size
  distinct : (p.values.map Value.key).Nodup
  closed : ∀ v ∈ p.values, ∀ x ∈ v.parts, x ∈ p.values

theorem valid_empty : Valid {} where
  numbered := rfl
  distinct := List.nodup_nil
  closed := by simp

variable {p : Pool} {v w : Value} {r : Request}

theorem intern_cases (p : Pool) (r : Request) :
    (∃ v ∈ p.values, v.key = r.key ∧ p.intern r.make = (v, p)) ∨
      (∀ v ∈ p.values, v.key ≠ r.key) ∧
        p.intern r.make = (r.make (p.size + 1), ⟨p.values ++ [r.make (p.size + 1)]⟩) := by
  unfold intern
  simp only [Request.key_make]
  cases h : p.values.find? (·.key.text = r.key.text) with
  | some v =>
    have hv : v.key.text = r.key.text := by simpa using List.find?_some h
    exact .inl ⟨v, List.mem_of_find?_eq_some h, Key.text_injective hv, rfl⟩
  | none =>
    refine .inr ⟨fun v hv hkey => ?_, rfl⟩
    simpa [hkey] using List.find?_eq_none.mp h v hv

theorem prefix_intern (p : Pool) (r : Request) : p.values <+: (p.intern r.make).2.values := by
  rcases intern_cases p r with ⟨v, -, -, h⟩ | ⟨-, h⟩ <;> simp [h]

theorem mem_intern (p : Pool) (r : Request) :
    (p.intern r.make).1 ∈ (p.intern r.make).2.values := by
  rcases intern_cases p r with ⟨v, hv, -, h⟩ | ⟨-, h⟩
  · simpa [h] using hv
  · simp [h]

namespace Valid

theorem eq_of_id (h : p.Valid) (hv : v ∈ p.values) (hw : w ∈ p.values) (hid : v.id = w.id) :
    v = w := by
  have hnodup : (p.values.map Value.id).Nodup := h.numbered ▸ List.nodup_range'
  exact List.inj_on_of_nodup_map hnodup hv hw hid

theorem eq_of_key (h : p.Valid) (hv : v ∈ p.values) (hw : w ∈ p.values) (hkey : v.key = w.key) :
    v = w :=
  List.inj_on_of_nodup_map h.distinct hv hw hkey

theorem intern_eq (h : p.Valid) (hv : v ∈ p.values) (hkey : v.key = r.key) :
    p.intern r.make = (v, p) := by
  rcases intern_cases p r with ⟨w, hw, hwkey, hr⟩ | ⟨hnew, -⟩
  · rw [hr, h.eq_of_key hw hv (hwkey.trans hkey.symm)]
  · exact absurd hkey (hnew v hv)

theorem eq_of_map {α : Type} {f : Value → α} {vs ws : List Value}
    (hinj : ∀ v ∈ vs, ∀ w ∈ ws, f v = f w → v = w) (h : vs.map f = ws.map f) : vs = ws := by
  induction vs generalizing ws with
  | nil => simpa using h.symm
  | cons v vs ih =>
    cases ws with
    | nil => simp at h
    | cons w ws =>
      simp only [List.map_cons, List.cons.injEq] at h
      rw [hinj v (by simp) w (by simp) h.1,
        ih (fun v hv w hw => hinj v (by simp [hv]) w (by simp [hw])) h.2]

/-- In a pool, what is equal up to numbers is equal. -/
theorem eq_of_bare (h : p.Valid) (hv : v ∈ p.values) (hw : w ∈ p.values)
    (hbare : v.bare = w.bare) : v = w := by
  induction v using Value.induction_on_parts generalizing w with
  | h v ih =>
    have hparts : v.parts = w.parts := by
      refine eq_of_map (fun x hx y hy hxy => ?_) (Value.map_bare_parts hbare)
      exact ih x hx (h.closed v hv x hx) (h.closed w hw y hy) hxy
    exact h.eq_of_key hv hw (Value.key_eq_of_parts hbare hparts)

theorem id_eq_iff (h : p.Valid) (hv : v ∈ p.values) (hw : w ∈ p.values) :
    v.id = w.id ↔ v.bare = w.bare :=
  ⟨fun hid => h.eq_of_id hv hw hid ▸ rfl, fun hbare => h.eq_of_bare hv hw hbare ▸ rfl⟩

theorem bare_eq_of_key (h : p.Valid) (hv : ∀ x ∈ v.parts, x ∈ p.values)
    (hw : ∀ x ∈ w.parts, x ∈ p.values) (hkey : v.key = w.key) : v.bare = w.bare :=
  Value.bare_eq_of_parts hkey <| eq_of_map
    (fun x hx y hy hid => h.eq_of_id (hv x hx) (hw y hy) hid) (Value.map_id_parts hkey)

theorem bare_intern (h : p.Valid) (hparts : ∀ x ∈ r.parts, x ∈ p.values) :
    (p.intern r.make).1.bare = r.bare := by
  rcases intern_cases p r with ⟨v, hv, hkey, hr⟩ | ⟨-, hr⟩
  · rw [hr]
    exact h.bare_eq_of_key (h.closed v hv) (by simpa using hparts) (hkey.trans rfl)
  · simp [hr]

theorem intern (h : p.Valid) (hparts : ∀ x ∈ r.parts, x ∈ p.values) :
    (p.intern r.make).2.Valid := by
  rcases intern_cases p r with ⟨v, -, -, hr⟩ | ⟨hnew, hr⟩
  · rwa [hr]
  · rw [hr]
    constructor
    · simp [h.numbered, size, List.range'_1_concat, Nat.add_comm]
    · simp only [List.map_append, List.map_cons, List.map_nil, Request.key_make]
      rw [← List.concat_eq_append]
      refine h.distinct.concat fun hmem => ?_
      obtain ⟨v, hv, hkey⟩ := List.mem_map.mp hmem
      exact hnew v hv hkey
    · intro v hv x hx
      rcases List.mem_append.mp hv with hv | hv
      · exact List.mem_append_left _ (h.closed v hv x hx)
      · rw [List.mem_singleton.mp hv, Request.parts_make] at hx
        exact List.mem_append_left _ (hparts x hx)

end Valid

end Pool

/-! ## Sequences of requests -/

/-- The pool after some requests to a new one, and the values given, in order. The parts of
an aggregate are values that the pool gave before. -/
inductive Served : Pool → List Value → Prop
  | start : Served {} []
  | serve {p : Pool} {given : List Value} (r : Request) :
      Served p given → (∀ x ∈ r.parts, x ∈ given) →
      Served (p.intern r.make).2 (given ++ [(p.intern r.make).1])

namespace Served

variable {p : Pool} {given : List Value}

theorem mem_iff (h : Served p given) (v : Value) : v ∈ given ↔ v ∈ p.values := by
  induction h with
  | start => simp
  | @serve p given r _ _ ih =>
    rcases p.intern_cases r with ⟨w, hw, -, hr⟩ | ⟨-, hr⟩
    · simp only [hr, List.mem_append, List.mem_singleton, ih]
      exact ⟨fun hv => hv.elim (fun hv => hv) fun hv => hv ▸ hw, .inl⟩
    · simp [hr, ih]

theorem valid (h : Served p given) : p.Valid := by
  induction h with
  | start => exact Pool.valid_empty
  | serve r h hparts ih => exact ih.intern fun x hx => (h.mem_iff x).mp (hparts x hx)

theorem eraseDups_concat (numbers : List Nat) (n : Nat) :
    (numbers ++ [n]).eraseDups =
      if n ∈ numbers then numbers.eraseDups else numbers.eraseDups ++ [n] := by
  rw [List.eraseDups_append, List.removeAll]
  split
  · simp [*]
  · simp [*, List.eraseDups_cons]

theorem eraseDups_ids (h : Served p given) :
    (given.map Value.id).eraseDups = List.range' 1 p.size := by
  induction h with
  | start => rfl
  | @serve p given r h hparts ih =>
    have hids (n : Nat) : n ∈ given.map Value.id ↔ 1 ≤ n ∧ n < 1 + p.size := by
      rw [← List.mem_range'_1, ← h.valid.numbered]
      simp [h.mem_iff]
    rw [List.map_append, List.map_singleton, eraseDups_concat, ih]
    rcases p.intern_cases r with ⟨w, hw, -, hr⟩ | ⟨-, hr⟩
    · have hmem : w.id ∈ given.map Value.id := List.mem_map_of_mem ((h.mem_iff w).mpr hw)
      rw [hr, if_pos hmem]
    · have hnew : p.size + 1 ∉ given.map Value.id := by
        rw [hids]
        omega
      have hsize : (⟨p.values ++ [r.make (p.size + 1)]⟩ : Pool).size = p.size + 1 := by
        simp [Pool.size]
      rw [hr, Request.id_make, if_neg hnew, hsize, List.range'_1_concat, Nat.add_comm 1]

end Served

/-- A pool is canonical after any requests. The values it gave have one number if and only if
they are the same constant, the numbers count the constants in the order in which they were first
asked for, and a further request gives the constant asked for and leaves all values as they
are. -/
theorem served_canonical {p : Pool} {given : List Value} (h : Served p given) :
    (∀ v ∈ given, ∀ w ∈ given, v.id = w.id ↔ v.bare = w.bare) ∧
      (given.map Value.id).eraseDups = List.range' 1 p.size ∧
      (∀ v, v ∈ given ↔ v ∈ p.values) ∧
      ∀ r : Request, (∀ x ∈ r.parts, x ∈ given) →
        (p.intern r.make).1.bare = r.bare ∧ p.values <+: (p.intern r.make).2.values := by
  refine ⟨fun v hv w hw => ?_, h.eraseDups_ids, h.mem_iff, fun r hparts => ⟨?_, p.prefix_intern r⟩⟩
  · exact h.valid.id_eq_iff ((h.mem_iff v).mp hv) ((h.mem_iff w).mp hw)
  · exact h.valid.bare_intern fun x hx => (h.mem_iff x).mp (hparts x hx)

/-- Asked twice for the list of 7, a pool gives one value. -/
theorem served_canonical_list :
    let seven := Value.int 1 7
    let only := Value.list 2 [seven]
    Served ⟨[seven, only]⟩ [seven, only, only] ∧
      ∀ v ∈ [seven, only, only], ∀ w ∈ [seven, only, only], v.id = w.id ↔ v.bare = w.bare := by
  intro seven only
  have h₁ : Served ⟨[seven]⟩ [seven] := .serve (.int 7) .start fun x hx => by cases hx
  have hparts : ∀ x ∈ (Request.list [seven]).parts, x ∈ [seven] := fun x hx => hx
  have h₂ : Served ⟨[seven, only]⟩ [seven, only] := .serve (.list [seven]) h₁ hparts
  have hagain : Pool.intern ⟨[seven, only]⟩ (Request.list [seven]).make = (only, ⟨[seven, only]⟩) :=
    h₂.valid.intern_eq (by simp) rfl
  have h : Served ⟨[seven, only]⟩ [seven, only, only] := by
    simpa [hagain] using h₂.serve (.list [seven]) fun x hx => List.mem_append_left _ (hparts x hx)
  exact ⟨h, (served_canonical h).1⟩

end Flowgraph.Constant
