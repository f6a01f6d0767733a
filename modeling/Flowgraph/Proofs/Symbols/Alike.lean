import Flowgraph.Symbols.Lookup

/-! # Tables that answer alike

Closures and tear-offs are added to a table while functions are lowered. What is asked by
name stays as it is.
-/

namespace Flowgraph.Symbols.Table

open Flowgraph.Tree (MemberRef)

/-- Functions that are found by name. -/
def Known (t : Table) (id : Nat) : Prop :=
  (∃ ref, (ref, id) ∈ t.functionIndex) ∨ ∃ ref, (ref, id) ∈ t.constructorIndex

structure Alike (t t' : Table) : Prop where
  classes : t'.classes = t.classes
  fields : t'.fields = t.fields
  fieldIndex : t'.fieldIndex = t.fieldIndex
  functionIndex : t'.functionIndex = t.functionIndex
  constructorIndex : t'.constructorIndex = t.constructorIndex
  localConstants : t'.localConstants = t.localConstants
  function : ∀ id, t.Known id → t'.function id = t.function id

namespace Alike

variable {t t' : Table}

theorem refl (t : Table) : Alike t t := ⟨rfl, rfl, rfl, rfl, rfl, rfl, fun _ _ => rfl⟩

theorem field (h : Alike t t') (id : Nat) : t'.field id = t.field id := by
  rw [Table.field, h.fields, Table.field]

theorem class? (h : Alike t t') (name : String) : t'.class? name = t.class? name := by
  rw [Table.class?, h.classes, Table.class?]

theorem chainFrom (h : Alike t t') (limit : Nat) (name : Option String) :
    t'.chainFrom limit name = t.chainFrom limit name := by
  have hclass : t'.class? = t.class? := funext h.class?
  induction limit generalizing name with
  | zero => rfl
  | succ limit ih => simp only [Table.chainFrom, hclass, ih]

theorem chain (h : Alike t t') (name : String) : t'.chain name = t.chain name := by
  rw [Table.chain, h.classes, h.chainFrom, Table.chain]

theorem instanceFields (h : Alike t t') (name : String) :
    t'.instanceFields name = t.instanceFields name := by
  simp only [Table.instanceFields, h.chain, h.field]

theorem lookupIn (h : Alike t t') (x : Index) (ref : MemberRef) :
    t'.lookupIn x ref = t.lookupIn x ref := by
  simp only [Table.lookupIn, h.chain]

theorem lookupField (h : Alike t t') (ref : MemberRef) :
    t'.lookupField ref = t.lookupField ref := by
  rw [Table.lookupField, h.fieldIndex, h.lookupIn, Table.lookupField]

theorem unresolvedClass (h : Alike t t') (place : Position) (name : String) :
    t'.unresolvedClass place name = t.unresolvedClass place name := by
  rw [Table.unresolvedClass, h.classes, Table.unresolvedClass]

theorem unresolvedMember (h : Alike t t') (what : String) (ref : MemberRef) :
    t'.unresolvedMember what ref = t.unresolvedMember what ref := by
  simp only [Table.unresolvedMember, h.class?, h.unresolvedClass, h.fieldIndex, h.functionIndex]

theorem resolveClass (h : Alike t t') (name : String) :
    t'.resolveClass name = t.resolveClass name := by
  rw [Table.resolveClass, h.class?, h.unresolvedClass, Table.resolveClass]

theorem resolveField (h : Alike t t') (ref : MemberRef) :
    t'.resolveField ref = t.resolveField ref := by
  rw [Table.resolveField, h.lookupField, h.unresolvedMember, Table.resolveField]

theorem resolveFunction (h : Alike t t') (ref : MemberRef) :
    t'.resolveFunction ref = t.resolveFunction ref := by
  rw [Table.resolveFunction, Table.lookupFunction, h.functionIndex, h.lookupIn, h.unresolvedMember,
    Table.resolveFunction, Table.lookupFunction]

theorem resolveConstructor (h : Alike t t') (ref : MemberRef) :
    t'.resolveConstructor ref = t.resolveConstructor ref := by
  have hnames : ((t.constructorIndex.filter (·.1.className = ref.className)).map
        fun entry => (t'.function entry.2).name) =
      (t.constructorIndex.filter (·.1.className = ref.className)).map
        fun entry => (t.function entry.2).name := by
    refine List.map_congr_left fun entry hmem => ?_
    rw [h.function entry.2 (.inr ⟨entry.1, (List.mem_filter.mp hmem).1⟩)]
  simp only [Table.resolveConstructor, h.constructorIndex, h.resolveClass, hnames]

end Alike

variable {t : Table} {ref : MemberRef} {id : Nat}

theorem mem_of_get? {x : Index} (h : x.get? ref = some id) : (ref, id) ∈ x := by
  obtain ⟨⟨found, n⟩, hfind, rfl⟩ := Option.map_eq_some_iff.mp h
  have hfound : found = ref := by simpa using List.find?_some hfind
  exact hfound ▸ List.mem_of_find?_eq_some hfind

theorem mem_of_lookupIn {x : Index} (h : t.lookupIn x ref = some id) : ∃ found, (found, id) ∈ x := by
  unfold lookupIn at h
  split at h
  · exact ⟨ref, mem_of_get? h⟩
  · obtain ⟨c, -, hc⟩ := List.exists_of_findSome?_eq_some h
    exact ⟨_, mem_of_get? hc⟩

theorem known_of_resolveFunction (h : t.resolveFunction ref = .ok id) : t.Known id := by
  unfold resolveFunction at h
  split at h
  · rename_i found hfound
    obtain rfl : found = id := by simpa using h
    exact .inl (mem_of_lookupIn hfound)
  · cases h

theorem known_of_resolveConstructor (h : t.resolveConstructor ref = .ok id) : t.Known id := by
  unfold resolveConstructor at h
  split at h
  · rename_i found hfound
    obtain rfl : found = id := by simpa using h
    exact .inr ⟨ref, mem_of_get? hfound⟩
  · rcases hclass : t.resolveClass ref.className with e | c <;> rw [hclass] at h <;> cases h

/-! ## What is not found -/

variable {f : Failure} {name : String}

theorem kind_unresolvedMember (t : Table) (what : String) (ref : MemberRef) :
    (t.unresolvedMember what ref).kind = .unresolved := by
  unfold unresolvedMember
  split <;> rfl

theorem kind_of_resolveClass (h : t.resolveClass name = .error f) : f.kind = .unresolved := by
  unfold resolveClass at h
  split at h
  · cases h
  · cases h
    rfl

theorem kind_of_resolveField (h : t.resolveField ref = .error f) : f.kind = .unresolved := by
  unfold resolveField at h
  split at h
  · cases h
  · cases h
    exact t.kind_unresolvedMember _ _

theorem kind_of_resolveFunction (h : t.resolveFunction ref = .error f) : f.kind = .unresolved := by
  unfold resolveFunction at h
  split at h
  · cases h
  · cases h
    exact t.kind_unresolvedMember _ _

theorem kind_of_resolveConstructor (h : t.resolveConstructor ref = .error f) :
    f.kind = .unresolved := by
  unfold resolveConstructor at h
  split at h
  · cases h
  · rcases hclass : t.resolveClass ref.className with e | c
    · rw [hclass] at h
      cases h
      exact kind_of_resolveClass hclass
    · rw [hclass] at h
      cases h
      rfl

end Flowgraph.Symbols.Table
