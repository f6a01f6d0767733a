import Flowgraph.Proofs.Scoping.Run

/-! # The shape of an analysis

What the parts of an analysis have to do with each other while it is made: the scope around a scope
is older, a listed variable belongs to its scope, and every function numbers its slots. Each of the
changes that a move consists of keeps it.
-/

namespace Flowgraph.Scoping

theorem getD_push {α : Type} (xs : Array α) (x d : α) (i : Nat) :
    (xs.push x).getD i d = if i = xs.size then x else xs.getD i d := by
  simp only [Array.getD_eq_getD_getElem?, Array.getElem?_push]
  split <;> rfl

theorem getD_modify {α : Type} (xs : Array α) (i j : Nat) (f : α → α) (d : α) :
    (xs.modify i f).getD j d = if j = i ∧ i < xs.size then f (xs.getD j d) else xs.getD j d := by
  simp only [Array.getD_eq_getD_getElem?, Array.getElem?_modify]
  by_cases hij : i = j
  · subst hij
    by_cases hi : i < xs.size <;> simp [hi]
  · simp [hij, Ne.symm hij]

namespace Analysis

/-! ## Changes -/

def addScope (a : Analysis) (s : Scope) : Analysis := { a with scopes := a.scopes.push s }

def addLayout (a : Analysis) (l : Layout) : Analysis := { a with layouts := a.layouts.push l }

/-- A new variable, in the next slot of its function. -/
def addVariable (a : Analysis) (name : String) (decl : Option Nat) (scope function : Nat) : Analysis :=
  { a with vars := a.vars.push { name, decl, scope, function, slot := (a.layout function).slots },
           layouts := a.layouts.modify function fun l => { l with slots := l.slots + 1 } }

def listVariable (a : Analysis) (v scope : Nat) : Analysis :=
  { a with scopes := a.scopes.modify scope fun s => { s with vars := s.vars ++ [v] } }

/-- A new variable of a scope. -/
def addListed (a : Analysis) (name : String) (decl : Option Nat) (scope function : Nat) : Analysis :=
  (a.addVariable name decl scope function).listVariable a.vars.size scope

def editLayout (a : Analysis) (f : Nat) (change : Layout → Layout) : Analysis :=
  { a with layouts := a.layouts.modify f change }

/-- The receiver is a variable that its function notes. -/
def addReceiver (a : Analysis) (scope function : Nat) : Analysis :=
  (a.addListed "this" none scope function).editLayout function fun l =>
    { l with this := some a.vars.size }

def markCaptured (a : Analysis) (v : Nat) : Analysis :=
  { a with vars := a.vars.modify v fun x => { x with isCaptured := true } }

variable (a : Analysis)

theorem scope_addScope (s : Scope) (i : Nat) :
    (a.addScope s).scope i = if i = a.scopes.size then s else a.scope i := getD_push ..

@[simp] theorem size_scopes_addScope (s : Scope) : (a.addScope s).scopes.size = a.scopes.size + 1 :=
  Array.size_push ..

theorem layout_addLayout (l : Layout) (f : Nat) :
    (a.addLayout l).layout f = if f = a.layouts.size then l else a.layout f := getD_push ..

@[simp] theorem size_layouts_addLayout (l : Layout) :
    (a.addLayout l).layouts.size = a.layouts.size + 1 := Array.size_push ..

section Variables

variable (name : String) (decl : Option Nat) (scope function : Nat)

theorem var_addVariable (v : Nat) :
    (a.addVariable name decl scope function).var v =
      if v = a.vars.size then { name, decl, scope, function, slot := (a.layout function).slots }
      else a.var v := getD_push ..

theorem layout_addVariable (f : Nat) :
    (a.addVariable name decl scope function).layout f =
      if f = function ∧ function < a.layouts.size then
        { a.layout f with slots := (a.layout f).slots + 1 }
      else a.layout f := getD_modify ..

theorem this_addVariable (f : Nat) :
    ((a.addVariable name decl scope function).layout f).this = (a.layout f).this := by
  rw [layout_addVariable]
  split <;> rfl

@[simp] theorem size_vars_addVariable :
    (a.addVariable name decl scope function).vars.size = a.vars.size + 1 := Array.size_push ..

@[simp] theorem size_layouts_addVariable :
    (a.addVariable name decl scope function).layouts.size = a.layouts.size := Array.size_modify ..

end Variables

theorem scope_listVariable (v i j : Nat) :
    (a.listVariable v i).scope j =
      if j = i ∧ i < a.scopes.size then { a.scope j with vars := (a.scope j).vars ++ [v] }
      else a.scope j := getD_modify ..

@[simp] theorem size_scopes_listVariable (v i : Nat) :
    (a.listVariable v i).scopes.size = a.scopes.size := Array.size_modify ..

section Listed

variable (name : String) (decl : Option Nat) (scope function : Nat)

theorem scope_addListed (i : Nat) :
    (a.addListed name decl scope function).scope i =
      if i = scope ∧ scope < a.scopes.size then
        { a.scope i with vars := (a.scope i).vars ++ [a.vars.size] }
      else a.scope i := scope_listVariable ..

theorem var_addListed (v : Nat) :
    (a.addListed name decl scope function).var v =
      if v = a.vars.size then { name, decl, scope, function, slot := (a.layout function).slots }
      else a.var v := a.var_addVariable name decl scope function v

theorem layout_addListed (f : Nat) :
    (a.addListed name decl scope function).layout f =
      if f = function ∧ function < a.layouts.size then
        { a.layout f with slots := (a.layout f).slots + 1 }
      else a.layout f := a.layout_addVariable name decl scope function f

@[simp] theorem size_scopes_addListed :
    (a.addListed name decl scope function).scopes.size = a.scopes.size := size_scopes_listVariable ..

@[simp] theorem size_vars_addListed :
    (a.addListed name decl scope function).vars.size = a.vars.size + 1 :=
  a.size_vars_addVariable name decl scope function

@[simp] theorem size_layouts_addListed :
    (a.addListed name decl scope function).layouts.size = a.layouts.size :=
  a.size_layouts_addVariable name decl scope function

theorem this_addListed (f : Nat) :
    ((a.addListed name decl scope function).layout f).this = (a.layout f).this :=
  a.this_addVariable name decl scope function f

end Listed

theorem layout_editLayout (f g : Nat) (change : Layout → Layout) :
    (a.editLayout f change).layout g =
      if g = f ∧ f < a.layouts.size then change (a.layout g) else a.layout g := getD_modify ..

@[simp] theorem size_layouts_editLayout (f : Nat) (change : Layout → Layout) :
    (a.editLayout f change).layouts.size = a.layouts.size := Array.size_modify ..

theorem var_markCaptured (v w : Nat) :
    (a.markCaptured v).var w = { a.var w with
      isCaptured := (a.var w).isCaptured || decide (w = v ∧ w < a.vars.size) } := by
  refine (getD_modify ..).trans ?_
  by_cases h : w = v ∧ w < a.vars.size
  · rw [if_pos ⟨h.1, h.1 ▸ h.2⟩, decide_eq_true h, Bool.or_true]
    rfl
  · rw [if_neg (by rintro ⟨rfl, hv⟩; exact h ⟨rfl, hv⟩), decide_eq_false h, Bool.or_false]
    rfl

@[simp] theorem size_vars_markCaptured (v : Nat) : (a.markCaptured v).vars.size = a.vars.size :=
  Array.size_modify ..

theorem scope_forceFrame (f i : Nat) :
    (a.forceFrame f).scope i = { a.scope i with
      isForced := (a.scope i).isForced || decide ((a.layout f).scope = i ∧ i < a.scopes.size) } := by
  refine (getD_modify ..).trans ?_
  by_cases h : (a.layout f).scope = i ∧ i < a.scopes.size
  · rw [if_pos ⟨h.1.symm, h.1 ▸ h.2⟩, decide_eq_true h, Bool.or_true]
    rfl
  · rw [if_neg (by rintro ⟨rfl, hi⟩; exact h ⟨rfl, hi⟩), decide_eq_false h, Bool.or_false]
    rfl

@[simp] theorem size_scopes_forceFrame (f : Nat) : (a.forceFrame f).scopes.size = a.scopes.size :=
  Array.size_modify ..

end Analysis

/-! ## Shape -/

structure Shape (a : Analysis) : Prop where
  first : a.firstVariable = 0 ∧ a.firstScope = 0 ∧ a.firstLayout = 0
  parent_lt : ∀ i p, (a.scope i).parent = some p → p < i
  entry : ∀ f < a.layouts.size,
    (a.layout f).scope < a.scopes.size ∧ (a.scope (a.layout f).scope).function = f
  listed : ∀ i, ∀ v ∈ (a.scope i).vars, v < a.vars.size ∧ (a.var v).scope = i ∧
    (a.var v).function = (a.scope i).function
  nodup : ∀ i, (a.scope i).vars.Nodup
  home : ∀ v < a.vars.size, (a.var v).scope < a.scopes.size ∧ (a.var v).function < a.layouts.size
  slot_lt : ∀ v < a.vars.size, 0 ≤ (a.var v).slot ∧
    (a.var v).slot < (a.layout (a.var v).function).slots
  slot_inj : ∀ v < a.vars.size, ∀ w < a.vars.size, (a.var v).function = (a.var w).function →
    (a.var v).slot = (a.var w).slot → v = w
  decl_listed : ∀ v d, (a.var v).decl = some d → v ∈ (a.scope (a.var v).scope).vars
  decl_inj : ∀ v w d, (a.var v).decl = some d → (a.var w).decl = some d → v = w
  this_listed : ∀ v, a.member.this = some v → v ∈ (a.scope (a.var v).scope).vars ∧
    (a.var v).function = 0
  captured_listed : ∀ v, (a.var v).isCaptured = true → v ∈ (a.scope (a.var v).scope).vars

theorem Analysis.scope_of_le {a : Analysis} {i : Nat} (h : a.scopes.size ≤ i) :
    a.scope i = default := by
  simp [Analysis.scope, Array.getD_eq_getD_getElem?, h]

theorem Analysis.var_of_le {a : Analysis} {v : Nat} (h : a.vars.size ≤ v) : a.var v = default := by
  simp [Analysis.var, Array.getD_eq_getD_getElem?, h]

theorem Analysis.layout_of_le {a : Analysis} {f : Nat} (h : a.layouts.size ≤ f) :
    a.layout f = default := by
  simp [Analysis.layout, Array.getD_eq_getD_getElem?, h]

section Defaults

@[simp] theorem parent_default : (default : Scope).parent = none := rfl
@[simp] theorem vars_default : (default : Scope).vars = [] := rfl
@[simp] theorem decl_default : (default : Variable).decl = none := rfl
@[simp] theorem isCaptured_default : (default : Variable).isCaptured = false := rfl
@[simp] theorem this_default : (default : Layout).this = none := rfl

end Defaults

theorem shape_empty : Shape {} := by
  have hscope (i : Nat) : ({} : Analysis).scope i = default := Analysis.scope_of_le (Nat.zero_le i)
  have hvar (v : Nat) : ({} : Analysis).var v = default := Analysis.var_of_le (Nat.zero_le v)
  have hmember : ({} : Analysis).member = default := Analysis.layout_of_le (Nat.zero_le 0)
  constructor <;> simp [hscope, hvar, hmember]

variable {a b : Analysis}

theorem Shape.lt_of_listed (h : Shape a) {i v : Nat} (hv : v ∈ (a.scope i).vars) :
    i < a.scopes.size := by
  obtain ⟨hlt, rfl, _⟩ := h.listed i v hv
  exact (h.home v hlt).1

attribute [grind →] Shape.parent_lt Shape.listed Shape.decl_listed Shape.decl_inj Shape.this_listed
  Shape.captured_listed Shape.lt_of_listed

theorem Shape.openFunction (h : Shape a) {l : Layout} {s : Scope} (hl : l.scope = a.scopes.size)
    (hthis : l.this = none) (hs : s.function = a.layouts.size) (hv : s.vars = [])
    (hp : ∀ p, s.parent = some p → p < a.scopes.size) : Shape ((a.addLayout l).addScope s) := by
  have hscope (i : Nat) : ((a.addLayout l).addScope s).scope i =
      if i = a.scopes.size then s else a.scope i := Analysis.scope_addScope ..
  have hlayout (f : Nat) : ((a.addLayout l).addScope s).layout f =
      if f = a.layouts.size then l else a.layout f := Analysis.layout_addLayout ..
  have hvar (v : Nat) : ((a.addLayout l).addScope s).var v = a.var v := rfl
  have hscopes : ((a.addLayout l).addScope s).scopes.size = a.scopes.size + 1 := Array.size_push ..
  have hlayouts : ((a.addLayout l).addScope s).layouts.size = a.layouts.size + 1 := Array.size_push ..
  have hvars : ((a.addLayout l).addScope s).vars.size = a.vars.size := rfl
  have hmember : ((a.addLayout l).addScope s).member =
      if a.firstLayout = a.layouts.size then l else a.member := hlayout a.firstLayout
  have hentry := h.entry
  have hhome := h.home
  have hslot := h.slot_lt
  constructor
  case first => exact h.first
  case slot_inj => grind [→ Shape.slot_inj]
  case nodup => grind [h.nodup]
  case parent_lt =>
    clear hentry hhome hslot
    grind
  all_goals grind

theorem Shape.openScope (h : Shape a) {s : Scope} (hv : s.vars = []) (hp : ∀ p, s.parent = some p → p < a.scopes.size) : Shape (a.addScope s) := by
  have hscope := a.scope_addScope s
  have hlayout (f : Nat) : (a.addScope s).layout f = a.layout f := rfl
  have hvar (v : Nat) : (a.addScope s).var v = a.var v := rfl
  have hscopes := a.size_scopes_addScope s
  have hlayouts : (a.addScope s).layouts.size = a.layouts.size := rfl
  have hvars : (a.addScope s).vars.size = a.vars.size := rfl
  have hmember : (a.addScope s).member = a.member := rfl
  have hentry := h.entry
  have hhome := h.home
  have hslot := h.slot_lt
  constructor
  case first => exact h.first
  case slot_inj => grind [→ Shape.slot_inj]
  case nodup => grind [h.nodup]
  case parent_lt =>
    clear hentry hhome hslot
    grind
  all_goals grind

section Variables

variable {name : String} {decl : Option Nat} {scope function : Nat}

theorem Shape.addHelper (h : Shape a) (hs : scope < a.scopes.size) (hf : function < a.layouts.size) :
    Shape (a.addVariable name none scope function) := by
  have hscope (i : Nat) : (a.addVariable name none scope function).scope i = a.scope i := rfl
  have hlayout := a.layout_addVariable name none scope function
  have hvar := a.var_addVariable name none scope function
  have hscopes : (a.addVariable name none scope function).scopes.size = a.scopes.size := rfl
  have hlayouts := a.size_layouts_addVariable name none scope function
  have hvars := a.size_vars_addVariable name none scope function
  have hmember : (a.addVariable name none scope function).member.this = a.member.this :=
    a.this_addVariable name none scope function a.firstLayout
  have hentry := h.entry
  have hhome := h.home
  have hslot := h.slot_lt
  constructor
  case first => exact h.first
  case slot_inj => grind [→ Shape.slot_inj]
  case nodup => grind [h.nodup]
  case parent_lt =>
    clear hentry hhome hslot
    grind
  all_goals grind

theorem Shape.addListed (h : Shape a) (hs : scope < a.scopes.size)
    (hf : (a.scope scope).function = function) (hf' : function < a.layouts.size)
    (hdecl : ∀ d, decl = some d → ∀ v, (a.var v).decl ≠ some d) :
    Shape (a.addListed name decl scope function) := by
  have hscope := a.scope_addListed name decl scope function
  have hlayout := a.layout_addListed name decl scope function
  have hvar := a.var_addListed name decl scope function
  have hscopes := a.size_scopes_addListed name decl scope function
  have hlayouts := a.size_layouts_addListed name decl scope function
  have hvars := a.size_vars_addListed name decl scope function
  have hmember : (a.addListed name decl scope function).member.this = a.member.this :=
    a.this_addListed name decl scope function a.firstLayout
  have hentry := h.entry
  have hhome := h.home
  have hslot := h.slot_lt
  constructor
  case first => exact h.first
  case slot_inj => grind [→ Shape.slot_inj]
  case nodup => grind [h.nodup]
  case parent_lt =>
    clear hentry hhome hslot
    grind
  all_goals grind

end Variables

/-- The analyses differ at most in what is captured, in which frames are forced and in the notes of
the functions. -/
structure Alike (a b : Analysis) : Prop where
  first : b.firstVariable = a.firstVariable ∧ b.firstScope = a.firstScope ∧
    b.firstLayout = a.firstLayout
  sizes : b.vars.size = a.vars.size ∧ b.scopes.size = a.scopes.size ∧
    b.layouts.size = a.layouts.size
  scope : ∀ i, (b.scope i).parent = (a.scope i).parent ∧ (b.scope i).function = (a.scope i).function ∧
    (b.scope i).vars = (a.scope i).vars
  var : ∀ v, (b.var v).decl = (a.var v).decl ∧ (b.var v).scope = (a.var v).scope ∧
    (b.var v).function = (a.var v).function ∧ (b.var v).slot = (a.var v).slot
  layout : ∀ f, (b.layout f).scope = (a.layout f).scope ∧ (b.layout f).slots = (a.layout f).slots

theorem Shape.congr (h : Shape a) (hab : Alike a b)
    (hthis : ∀ v, b.member.this = some v → v ∈ (a.scope (a.var v).scope).vars ∧ (a.var v).function = 0)
    (hcaptured : ∀ v, (b.var v).isCaptured = true → v ∈ (a.scope (a.var v).scope).vars) : Shape b := by
  obtain ⟨hfirst, ⟨hvars, hscopes, hlayouts⟩, hscope, hvar, hlayout⟩ := hab
  constructor
  case first => grind [h.first]
  case parent_lt => grind
  case entry => 
    have := h.entry
    grind
  case listed => grind
  case nodup => grind [h.nodup]
  case home => 
    have := h.home
    grind
  case slot_lt => 
    have := h.slot_lt
    grind
  case slot_inj => grind [→ Shape.slot_inj]
  all_goals grind

end Flowgraph.Scoping
