import Flowgraph.Proofs.Lowering.Linear.Graph
import Flowgraph.Proofs.Lowering.Region.Graph

/-! # Interruptible graphs

In a finished graph the ranks rise along every edge between blocks, except for
blocks with a check and edges that continue to a case. A cycle has one of these.
Functions check the stack before they call anything.
-/

namespace Flowgraph.Lowering.Forward

open Assembly (Continues Follows Inv Makes Notes Ready Room Silent Writes continues_forwarding
  ends_silent follows_chain follows_member length_forwarded lowers_bodyCode ready_startState room_start
  sound_functionBody writes_codes)
open Constant (Store)
open Flowgraph.Graph (Code Fragment Laid Op)
open Symbols (FunctionInfo Table)

/-! ## Code that starts with a check -/

/-- The code starts with a check. -/
def Checked (c : Code) (f : Fragment) : Prop :=
  ∃ i, f.entry = some i ∧ i < c.size ∧ (c.op i).isCheck = true

/-- The step makes code whose first instruction is a check. -/
def Opens (n : LowerM Fragment) : Prop :=
  ∀ env s γ P L p q, Inv true s γ P L → Room true true env P p q →
    Ends env n s fun f s' => Checked s'.code f

/-- The same between statements. -/
def Begins (n : LowerM Fragment) : Prop :=
  ∀ env s γ P L p q, Ready true s γ P L → Room true true env P p q →
    Ends env n s fun f s' => Checked s'.code f

/-- The step leaves the start of a fragment as it is. -/
def Keeps (k : Fragment → LowerM Fragment) : Prop :=
  ∀ env s f c, f.entry = some c → Ends env (k f) s fun g _ => g.entry = some c

section Opens

variable {α : Type} {n : LowerM Fragment} {ns : List (LowerM Fragment)}
  {k k' : Fragment → LowerM Fragment} {u v u' v' : Nat}

theorem keeps_pure : Keeps pure := fun _ _ _ _ h => ends_pure.mpr h

theorem Keeps.trans (h : Keeps k) (h' : Keeps k') : Keeps fun f => k f >>= k' :=
  fun env s f c hf => (h env s f c hf).bind fun g t hg => h' env t g c hg

theorem keeps_append (n : LowerM Fragment) : Keeps fun f => n >>= append f := by
  intro env s f c hf
  refine Ends.bind (M := fun _ _ => True) (ends_of_forall fun _ _ => trivial) fun g t _ => ?_
  rw [ends_append]
  obtain ⟨entry, exit⟩ := f
  obtain rfl : entry = some c := hf
  rcases exit with _ | x
  · rfl
  · rcases g with ⟨_ | e, y⟩ <;> rfl

theorem keeps_chain (ns : List (LowerM Fragment)) : Keeps fun f => chain f ns := by
  induction ns with
  | nil => exact keeps_pure
  | cons n ns ih => simpa only [bind_assoc, chain] using (keeps_append n).trans ih

theorem Keeps.ite {c : Prop} [Decidable c] (h : Keeps k) (h' : Keeps k') :
    Keeps fun f => if c then k f else k' f := by
  by_cases hc : c
  · simpa only [hc, if_true] using h
  · simpa only [hc, if_false] using h'

theorem keeps_bind {r : LowerM α} {k : α → Fragment → LowerM Fragment} (h : ∀ a, Keeps (k a)) :
    Keeps fun f => r >>= fun a => k a f := fun env _ f c hf =>
  Ends.bind (M := fun _ _ => True) (ends_of_forall fun _ _ => trivial)
    fun a t _ => h a env t f c hf

theorem Opens.idle {r : LowerM α} {k : α → LowerM Fragment} [Silent r] (h : ∀ a, Opens (k a)) :
    Opens (r >>= k) := fun env _ γ P L p q hi room =>
  ends_silent fun a s1 same => h a env s1 γ P L p q (hi.congr same) room

theorem Opens.bind (h : Opens n) [hn : Makes true n u v] (hk : Continues true k u' v')
    (hkeep : Keeps k) : Opens (n >>= k) := by
  intro env s γ P L p q hi room
  obtain ⟨r, room1, room2⟩ := room.split
  refine (Ends.and (hn.made env s γ P L p r hi room1) (h env s γ P L p r hi room1)).bind ?_
  rintro f s1 ⟨⟨γ1, h1⟩, c, hc, hlt, hcheck⟩
  refine (Ends.and (hk.made env s1 γ1 P L _ r q f h1.inv room2 h1.spans) (hkeep env s1 f c hc)).mono ?_
  rintro g s2 ⟨⟨γ2, h2⟩, hg⟩
  exact ⟨c, hg, hlt.trans_le h2.step.size, by rwa [h2.step.ops c hlt]⟩

theorem opens_checkStackOverflow : Opens checkStackOverflow := by
  intro env s γ P L p q hi room
  unfold checkStackOverflow
  rw [ends_bind, ends_read, if_pos (room.checks rfl), ends_bind, ends_get, ends_perform]
  refine ⟨s.code.size, rfl, by simp, ?_⟩
  rw [Code.op_push_size]
  rfl

theorem inOrder_cons (n : LowerM Fragment) (ns : List (LowerM Fragment)) :
    inOrder (n :: ns) = n >>= fun f => chain f ns := by
  have happend : ∀ g, append .empty g = pure g := fun g => rfl
  simp only [Lowering.inOrder, chain, happend, pure_bind]

theorem Opens.inOrder (h : Opens n) [Makes true n u v] [Continues true (fun f => chain f ns) u' v'] :
    Opens (inOrder (n :: ns)) := by
  rw [inOrder_cons]
  exact h.bind inferInstance (keeps_chain ns)

theorem opens_prologue (node : Nat) (place : Position) (closure : Option Scoping.Variable) :
    Opens (prologue node place closure) := by
  refine .idle fun e => ?_
  let scope := [enterScope node place,
    copyParameters ((e.layout.this.toList ++ e.layout.parameters).map e.analysis.var)]
  have hk : Continues true (fun f => chain f scope) 0 0 := inferInstance
  have hkeep : Keeps fun f => chain f scope := keeps_chain scope
  cases closure with
  | none => exact opens_checkStackOverflow.bind inferInstance (keeps_pure.trans hkeep)
  | some v =>
    refine opens_checkStackOverflow.bind (adds_ite inferInstance inferInstance)
      (.ite (keeps_pure.trans hkeep) ?_)
    exact (keeps_chain _).trans (keeps_bind fun _ => keeps_pure.trans hkeep)

theorem Opens.begins (h : Opens n) : Begins n := fun env s γ P _ p q hr room =>
  h env s γ P _ p q hr.inv room

theorem Opens.followed (h : Opens n) [hn : Makes true n 0 0]
    (hk : Follows true true fun f => chain f ns) : Begins (Lowering.inOrder (n :: ns)) := by
  rw [inOrder_cons]
  intro env s γ P L p q hr room
  obtain ⟨r, room1, room2⟩ := room.split
  refine (Ends.and (Makes.lowers hn env s γ P L p r hr room1)
    (h env s γ P _ p r hr.inv room1)).bind ?_
  rintro f s1 ⟨⟨γ1, h1⟩, c, hc, hlt, hcheck⟩
  refine (Ends.and (hk env s1 γ1 P L _ r q f h1.ready room2 h1.spans)
    (keeps_chain ns env s1 f c hc)).mono ?_
  rintro g s2 ⟨⟨γ2, h2⟩, hg⟩
  exact ⟨c, hg, hlt.trans_le h2.step.size, by rwa [h2.step.ops c hlt]⟩

theorem begins_memberCode (info : FunctionInfo) (body : Tree.Function) :
    Begins (memberCode info body) := by
  unfold memberCode
  rw [List.append_assoc]
  exact (opens_prologue _ _ _).followed (follows_member info body)

theorem begins_closureCode (body : Tree.Function) : Begins (closureCode body) :=
  (opens_prologue _ _ _).followed (follows_chain (by simpa using lowers_bodyCode _))

theorem begins_forwardingCode (info : FunctionInfo) (target : Nat) :
    Begins (forwardingCode info target) := by
  unfold forwardingCode
  dsimp only
  split
  · exact fun _ _ _ _ _ _ _ _ _ => ends_bind.mpr ends_throw
  · have := continues_forwarding (o := true) target info.named (length_forwarded info)
    rw [List.append_assoc]
    exact opens_checkStackOverflow.inOrder.begins

theorem begins_initializerCode (field : Tree.Field) (value : Tree.Expr) :
    Begins (initializerCode field value) :=
  opens_checkStackOverflow.inOrder.begins

end Opens

/-! ## Ranks of a graph -/

/-- The ranks of the code of a graph. -/
structure Ranked (g : Graph) (γ : Nat → ℚ) : Prop where
  links : ∀ i j, g.code.Linked i j → (g.code.op i).isCheck = true ∨ γ i ≤ γ j
  jumps : ∀ i, ∀ j ∈ (g.code.op i).targets,
    j ≠ g.root ∧ (i ≠ g.root → (g.code.get i).continues = true ∨ γ i < γ j)

/-- Blocks of a graph that each lead to the next one, and the last one to the first. -/
structure IsCycle (g : Graph) (b : Nat) (bs : List Nat) : Prop where
  mem : ∀ x ∈ b :: bs, x ∈ g.blocks
  edges : List.IsChain (fun x y => y ∈ g.code.successors x) (b :: (bs ++ [b]))

/-- Whether the block has a check. -/
def hasCheck (g : Graph) (b : Nat) : Bool := (g.code.body b).any fun i => (g.code.op i).isCheck

/-- Whether the edge out of the block was made to continue to a case. -/
def leavesForCase (g : Graph) (b : Nat) : Bool := (g.code.get (g.code.lastOf b)).continues

section Ranked

variable {g : Graph} {γ : Nat → ℚ} {b x y : Nat} {bs : List Nat}

theorem Ranked.rank_le (h : Ranked g γ) (hl : Laid g) (hx : x ∈ g.blocks)
    (hc : hasCheck g x = false) : ∀ i ∈ g.code.whole x, γ x ≤ γ i := by
  have hnone : ∀ i ∈ g.code.whole x, (g.code.op i).isCheck = false := by
    refine List.forall_mem_cons.mpr ⟨?_, fun i hi => ?_⟩
    · have hentry := (hl.entries x hx).2
      cases hop : g.code.op x <;> simp_all [Op.asEntry, Op.isCheck]
    · simpa using List.any_eq_false.mp hc i hi
  have hchain : (g.code.whole x).IsChain fun i j => γ i ≤ γ j :=
    (Graph.isChain_whole g.code x).imp_of_mem_imp fun i j hi _ hij =>
      (h.links i j hij).resolve_left (by simp [hnone i hi])
  have hpairs := List.isChain_iff_pairwise.mp ((List.isChain_map γ).mpr hchain)
  rw [Code.whole, List.map_cons, List.pairwise_cons] at hpairs
  exact List.forall_mem_cons.mpr ⟨le_rfl, fun i hi => hpairs.1 _ (List.mem_map_of_mem hi)⟩

theorem Ranked.rank_lt (h : Ranked g γ) (hl : Laid g) (hx : x ∈ g.blocks) (hroot : x ≠ g.root)
    (hc : hasCheck g x = false) (hs : leavesForCase g x = false) (hy : y ∈ g.code.successors x) :
    γ x < γ y := by
  have hle := h.rank_le hl hx hc _ (Graph.lastOf_mem_whole g.code x)
  obtain ⟨-, hj⟩ := h.jumps _ y (hl.mem_targets_lastOf hx hy)
  have hlast : g.code.lastOf x ≠ g.root := by
    rcases Code.lastOf_eq g.code x with heq | hmem
    · rwa [heq]
    · intro heq
      have hentry := (hl.entries g.root hl.root).2
      rw [← heq, (hl.checkedBody hx).1 _ hmem] at hentry
      cases hentry
  refine hle.trans_lt ((hj hlast).resolve_left ?_)
  rw [leavesForCase] at hs
  simp [hs]

/-- On a cycle there is a check, or an edge that continues to a case. -/
theorem Ranked.exists_of_isCycle (h : Ranked g γ) (hl : Laid g) (hb : IsCycle g b bs) :
    ∃ x ∈ b :: bs, hasCheck g x = true ∨ leavesForCase g x = true := by
  by_contra hnone
  have hbare : ∀ x ∈ b :: bs, hasCheck g x = false ∧ leavesForCase g x = false := fun x hx => by
    simpa [not_or] using fun hx' => hnone ⟨x, hx, hx'⟩
  -- No edge leads to the root.
  have hroot : ∀ x ∈ b :: bs, x ≠ g.root := by
    have hchain : List.IsChain (fun _ y => y ≠ g.root) (b :: (bs ++ [b])) :=
      hb.edges.imp fun x y hy => by
        obtain ⟨i, -, hi⟩ := Graph.exists_target_of_mem_successors hy
        exact (h.jumps i y hi).1
    have : Trans (fun _ y : Nat => y ≠ g.root) (fun _ y => y ≠ g.root) fun _ y => y ≠ g.root :=
      ⟨fun _ hy => hy⟩
    have htail := (List.pairwise_cons.mp (List.isChain_iff_pairwise.mp hchain)).1
    exact fun x hx => htail x (by simpa [or_comm] using hx)
  have hchain : List.IsChain (fun x y => γ x < γ y) (b :: (bs ++ [b])) :=
    hb.edges.imp_of_mem_imp fun x y hx _ hy => by
      have hx : x ∈ b :: bs := by simpa [or_comm, or_left_comm] using hx
      exact h.rank_lt hl (hb.mem x hx) (hroot x hx) (hbare x hx).1 (hbare x hx).2 hy
  have hpairs := List.isChain_iff_pairwise.mp ((List.isChain_map γ).mpr hchain)
  rw [List.map_cons, List.pairwise_cons] at hpairs
  exact lt_irrefl _ (hpairs.1 (γ b) (List.mem_map_of_mem (by simp)))

end Ranked

/-! ## The graph of a function -/

/-- The block where the function of a graph starts. -/
def functionStart (g : Graph) : Option Nat :=
  match g.code.op g.root with
  | .entry { kind := .graph start _ _, .. } => start
  | _ => none

/-- Control can go from an instruction along its link and to the blocks that it names, and
to a handler if it may throw. -/
def Flows (g : Graph) (i j : Nat) : Prop :=
  g.code.Linked i j ∨ j ∈ (g.code.op i).targets ∨
    (g.code.op i).mayThrow = true ∧ j ∈ rootHandlers g

theorem functionStart_graph {t : State} {b : Int} (id : Nat) (defaults : List Constant.Value)
    (h : 0 < t.code.size) (hr : t.code.op 0 = .entry { kind := .graph (some 1) [] [], block := b }) :
    functionStart (t.graph id defaults) = some 1 := by
  unfold functionStart
  change (match (t.graph id defaults).code.op 0 with
    | .entry { kind := .graph start _ _, .. } => start
    | _ => none) = _
  rw [Code.op, op_graph_root h hr]

theorem calls_of_isCheck {op : Op} (h : op.isCheck = true) : op.calls = false := by
  cases op <;> first | rfl | cases h

section Build

variable {settings : Settings} {store : Store} {place : Position} {t : State} {γ : Notes}
  {L : List Fragment}

/-- The function starts with a check. -/
def StartsChecked (c : Code) : Prop := ∃ i, c.Linked 1 i ∧ (c.op i).isCheck = true

theorem starts_functionBody {env : Env} {info : FunctionInfo} {n : LowerM Fragment}
    (henv : env.within = []) (he : env.settings.stackChecks = true) (hw : Writes true n)
    (hn : Begins n) : Ends env (functionBody info n) (startState settings store place) fun _ t =>
      StartsChecked t.code := by
  have hr := ready_startState (o := true) settings store place
  have room := room_start henv fun _ : true = true => he
  refine (ends_functionBody ((hw env _ _ _ _ _ _ hr room).and (hn env _ _ _ _ _ _ hr room))).mono ?_
  rintro _ _ ⟨⟨_, exit⟩, s, ⟨⟨γ, h⟩, c, rfl, hlt', hcheck⟩, -, rfl⟩
  have hlt := h.inv.sound.size
  change StartsChecked (s.code.link 1 c)
  refine ⟨c, ?_, ?_⟩
  · simp [Code.Linked, Code.get_link _ _ _ _ hlt hlt']
  · rwa [Code.op_link hlt hlt']

section Graph

variable (id : Nat) (defaults : List Constant.Value)

theorem linked_graph (h : Inv true t γ {} L) {i j : Nat} :
    (t.graph id defaults).code.Linked i j ↔ t.code.Linked i j := by
  unfold Code.Linked
  rcases graph_cases id defaults h i with hg | ⟨b, -, hg⟩ <;> rw [hg]

theorem isCheck_graph (h : Inv true t γ {} L) (i : Nat) :
    ((t.graph id defaults).code.op i).isCheck = (t.code.op i).isCheck := by
  rcases graph_cases id defaults h i with hg | ⟨b, hb, hg⟩
  · rw [Code.op, hg, Code.op]
  · rw [Code.op, hg, hb]
    rfl

theorem ranked_graph (h : Inv true t γ {} L) :
    Ranked (t.graph id defaults) fun i => (γ i).mark.rank := by
  constructor
  · intro i j hij
    rw [isCheck_graph id defaults h]
    have hleads := (h.sound.links i j ((linked_graph id defaults h).mp hij)).2
    cases hc : (t.code.op i).isCheck
    · exact .inr (hleads.rank rfl hc)
    · exact .inl rfl
  · intro i j hj
    change j ≠ 0 ∧ (i ≠ 0 → _)
    by_cases hi : i = 0
    · refine ⟨?_, fun h0 => absurd hi h0⟩
      obtain ⟨b, hb⟩ := h.sound.root
      rw [Code.op, hi, op_graph_root (Nat.zero_lt_of_lt h.sound.size) hb] at hj
      rcases List.mem_append.mp hj with hj | hj
      · rw [List.mem_singleton.mp hj]
        decide
      · exact (h.handlers j hj).1.ne'
    · rw [Code.op, get_graph hi] at hj
      obtain ⟨-, _, hahead⟩ := h.sound.ahead (Nat.pos_of_ne_zero hi) hj
      exact ⟨hahead.pos.ne', fun _ => by rw [get_graph hi]; exact hahead.rank⟩

/-- Whatever control does in a function that starts with a check, it gets to a call only after
the check. -/
theorem check_before_call (h : Inv true t γ {} L) (hs : StartsChecked t.code) :
    functionStart (t.graph id defaults) = some 1 ∧ ∀ path i,
      List.IsChain (Flows (t.graph id defaults)) (1 :: (path ++ [i])) →
      ((t.graph id defaults).code.op i).calls = true →
      ∃ c ∈ path, ((t.graph id defaults).code.op c).isCheck = true := by
  obtain ⟨c, hlink, hcheck⟩ := hs
  rw [← isCheck_graph id defaults h c] at hcheck
  have hlink := (linked_graph id defaults h).mpr hlink
  obtain ⟨b, hb⟩ := h.sound.root
  refine ⟨functionStart_graph id defaults (Nat.zero_lt_of_lt h.sound.size) hb,
    fun path i hpath hi => ?_⟩
  -- The start of the function leads to the check only.
  obtain ⟨b', hb'⟩ := h.sound.start
  have hop : (t.graph id defaults).code.op 1 = .entry { kind := .function, block := b' } := by
    rw [Code.op, get_graph (by decide)]
    exact hb'
  have honly : ∀ j, Flows (t.graph id defaults) 1 j → j = c := by
    rintro j (hj | hj | ⟨hj, -⟩)
    · rw [Code.Linked, hlink] at hj
      exact (Option.some.inj hj).symm
    · rw [hop] at hj
      cases hj
    · rw [hop] at hj
      cases hj
  cases path with
  | nil =>
    obtain rfl := honly i (List.isChain_cons_cons.mp hpath).1
    rw [calls_of_isCheck hcheck] at hi
    cases hi
  | cons j path => exact ⟨j, List.mem_cons_self, honly j (List.isChain_cons_cons.mp hpath).1 ▸ hcheck⟩

end Graph

/-- Graphs are interruptible. Every cycle of blocks has a check or an edge that continues to a
case, and control gets from the start of a function to a call only after a check, in all functions
but the accessors of fields and the initializers of constants. -/
theorem build_interruptible {id : Nat} {store' : Store} {g : Graph}
    (h : (build settings id).run store = (.ok g, store')) (hchecks : settings.stackChecks = true) :
    (∀ b bs, IsCycle g b bs → ∃ x ∈ b :: bs, hasCheck g x = true ∨ leavesForCase g x = true) ∧
    (checksFirst store.table id = true → ∃ start, functionStart g = some start ∧ ∀ path i,
      List.IsChain (Flows g) (start :: (path ++ [i])) → (g.code.op i).calls = true →
      ∃ c ∈ path, (g.code.op c).isCheck = true) := by
  have hplan : Gives (plan store.table id) fun p => Writes true p.code ∧
      (checksFirst store.table id = true → Begins p.code) := by
    refine (gives_plan (writes_codes true) _ _).and ?_
    by_cases hfirst : checksFirst store.table id = true
    · have := gives_plan_of_checksFirst hfirst begins_memberCode begins_closureCode
        begins_forwardingCode begins_initializerCode
      exact fun s p s' hr _ => this s p s' hr
    · exact fun _ _ _ _ hf => absurd hf hfirst
  obtain ⟨p, env, st, place, t, ⟨hwrites, hbegins⟩, henv, hwithin, hrun, hg⟩ := build_eq_ok h hplan
  have he : env.settings.stackChecks = true := henv ▸ hchecks
  obtain ⟨γ, hi, -⟩ := (sound_functionBody hwithin (fun _ => he) hwrites).run hrun
  obtain ⟨-, -, hl, -⟩ := Linear.build_noted h
  have hdiscover : (t.graph id p.defaults).discover.1 = g := congrArg Prod.fst hg
  refine ⟨fun b bs hb => ?_, fun hfirst => ?_⟩
  · have hranked : Ranked (t.graph id p.defaults).discover.1 fun i => (γ i).mark.rank :=
      { ranked_graph id p.defaults hi with }
    rw [hdiscover] at hranked
    exact hranked.exists_of_isCycle hl hb
  · have hstarts := (starts_functionBody hwithin he hwrites (hbegins hfirst)).run hrun
    rw [← hdiscover]
    exact ⟨1, check_before_call id p.defaults hi hstarts⟩

/-- A function that calls itself in a loop. -/
def waitingBody : Tree.Function where
  id := 0
  place := {}
  body := some (.whileDo {} (.staticCall {} ⟨"", "f"⟩ {} false) (.empty {}))

def waitingStore : Store where
  table :=
    { functions := #[{ name := "f", isStatic := true, body := some waitingBody,
                       member := some (.procedure none ⟨{}, "f", .method, true, false, waitingBody⟩) }]
      functionIndex := [(⟨"", "f"⟩, 0)] }

theorem waiting_interruptible : ∃ g store, (build {} 0).run waitingStore = (.ok g, store) ∧
    IsCycle g 8 [5] ∧ (∃ x ∈ [8, 5], hasCheck g x = true ∨ leavesForCase g x = true) ∧
    (g.code.op 3).calls = true ∧ ∃ start, functionStart g = some start ∧ ∀ path,
      List.IsChain (Flows g) (start :: (path ++ [3])) → ∃ c ∈ path, (g.code.op c).isCheck = true := by
  have hrun : ((build {} 0).run waitingStore).1.toOption.map (fun g =>
      (g.blocks, g.code.successors 8, g.code.successors 5, (g.code.op 3).calls)) =
        some ([0, 1, 8, 6, 5], [5, 6], [8], true) := by
    decide +kernel
  rcases h : (build {} 0).run waitingStore with ⟨_ | g, store⟩
  · rw [h] at hrun
    cases hrun
  · rw [h] at hrun
    obtain ⟨hblocks, hfrom₈, hfrom₅, hcalls⟩ : g.blocks = _ ∧ g.code.successors 8 = _ ∧
        g.code.successors 5 = _ ∧ (g.code.op 3).calls = _ := by
      simpa only [Prod.mk.injEq] using Option.some.inj hrun
    obtain ⟨hcycles, hfirst⟩ := build_interruptible h rfl
    have hcycle : IsCycle g 8 [5] := ⟨by simp [hblocks], by simp [hfrom₈, hfrom₅]⟩
    obtain ⟨start, hstart, hpaths⟩ := hfirst rfl
    exact ⟨g, store, rfl, hcycle, hcycles 8 [5] hcycle, hcalls, start, hstart,
      fun path hpath => hpaths path 3 hpath hcalls⟩

end Build

end Flowgraph.Lowering.Forward
