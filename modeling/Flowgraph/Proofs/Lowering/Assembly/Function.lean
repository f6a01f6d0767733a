import Flowgraph.Proofs.Lowering.Assembly.Attempt
import Flowgraph.Proofs.Lowering.Assembly.Loop
import Flowgraph.Proofs.Lowering.Assembly.Switch
import Flowgraph.Proofs.Lowering.Control
import Flowgraph.Proofs.Lowering.Plan

/-! # Functions

No statement leaves a value on the stack, and the code of each is put into place once.
At the start of a function nothing is in a try body, the only code in hand is its entry,
and the code of the body is put behind it.
-/

namespace Flowgraph.Lowering.Assembly

open Constant (Store)
open Flowgraph.Graph (Code Fragment Op)
open Symbols (FunctionInfo)

variable {o : Bool} {env : Env} {m : LowerM Fragment} {s s' : State} {γ γ' : Notes} {P : Kept}
  {L : List Fragment} {p q : Mark} {settings : Settings} {store : Store} {place : Position}

/-- Each kind of statement starts and ends with an empty stack. -/
def control (ordered : Bool) : Control Same where
  toRules := rules ordered true
  Fitting := Finalizes ordered
  choose {c k k'} hk hk' env s γ P L a p q f h room sp := by
    dsimp only
    split
    · exact hk env s γ P L a p q f h room sp
    · exact hk' env s γ P L a p q f h room sp
  enterScope _ _ := Makes.lowers inferInstance
  exitScope _ := Makes.lowers inferInstance
  expr _ := Makes.lowers inferInstance
  declare _ := Makes.lowers inferInstance
  function place d body := by
    have hstore : Makes ordered (do storeVariable (← lookupVariable place d.ref)) 1 1 :=
      made_passive inferInstance
    exact Makes.lowers inferInstance
  branch c _ _ := lowers_branch c
  doLoop c _ := lowers_doLoop c
  iterations fresh c updates _ := follows_forIterations fresh c updates
  forIn id place d e _ := lowers_forIn id place d e
  labeled label fs _ := lowers_labeled label fs
  breakTo place target _ := lowers_breakTo place target
  switchOn e _ fs := lowers_switchOn e fs
  continueTo place target _ := lowers_continueTo place target
  giveBack place _ _ hfs := lowers_giveBackThrough place hfs
  tryCatch := lowers_tryCatch
  tryFinally := lowers_tryFinally
  assertion := lowers_assertion
  return_ := Continues.follows inferInstance

theorem lowers_bodyCode (body : Option Tree.Stmt) : Lowers o true (bodyCode body) :=
  (control o).bodyCode body

/-- From `s` on, code was made that needs no values. -/
structure Written (ordered : Bool) (s : State) (γ : Notes) (P : Kept) (L : List Fragment) (p : Mark)
    (f : Fragment) (s' : State) (γ' : Notes) : Prop extends Pass s γ s' γ' where
  inv : Inv ordered s' γ' P (f :: L)
  spans : ∃ z, Spans ordered s'.code γ' p f z

def Writes (ordered : Bool) (m : LowerM Fragment) : Prop :=
  ∀ env s γ P L p q, Ready ordered s γ P L → Room ordered true env P p q →
    Ends env m s fun f s' => ∃ γ', Written ordered s γ P L p f s' γ'

theorem Lowers.writes (h : Lowers o true m) : Writes o m := by
  intro env s γ P L p q hr room
  refine (h env s γ P L p q hr room).mono ?_
  rintro f s' ⟨γ', hf⟩
  exact ⟨γ', hf.toPass, hf.ready.inv.sublist (List.sublist_append_left (f :: L) _), _, hf.spans⟩

theorem Makes.writes {v : Nat} (h : Makes o m 0 v) : Writes o m := by
  intro env s γ P L p q hr room
  refine (h.made env s γ P L p q (hr.inv.sublist (List.sublist_append_left L _)) room).mono ?_
  rintro f s' ⟨γ', hf⟩
  have sp := hf.spans
  rw [hr.empty] at sp
  exact ⟨γ', .of_around hf.step hf.around, hf.inv, _, sp⟩

/-! ## Code of functions -/

theorem lowers_constructorCode (owner : String) (ctor : Tree.Constructor) :
    Lowers o true (constructorCode owner ctor) :=
  .silent fun t => .silent fun c => lowers_inOrder <| follows_chain fun m hm => Makes.lowers <|
    made_constructorPieces (calculus o true) t c ctor _ (fun _ _ _ => rfl) (fun _ _ _ => rfl) m hm

theorem continues_forwarding {names : List String} {count : Nat} (target : Nat) (named : List String)
    (hcount : count ≤ names.length) :
    Continues o (fun f => chain f ((names.zipIdx.flatMap fun p =>
      [loadLocal { name := p.1, slot := p.2 }, pushArgument]) ++
      [staticCall target count named, giveBack])) 0 (names.length - count) := by
  have hload : ∀ m ∈ names.zipIdx.map fun p => loadLocal { name := p.1, slot := p.2 },
      Makes o m 0 1 := by
    intro m hm
    obtain ⟨p, -, rfl⟩ := List.mem_map.mp hm
    infer_instance
  have hpush := adds_pushAll hload
  rw [List.flatMap_map, List.length_map, List.length_zipIdx] at hpush
  exact .cast inferInstance (by omega) (by omega)

theorem length_forwarded (info : FunctionInfo) : (info.positional + info.named.length).toNat ≤
    ((List.range info.positional.toNat).map (fun i => ":p" ++ toString i) ++ info.named).length := by
  simp only [List.length_map, List.length_append, List.length_range]
  omega

theorem follows_member (info : FunctionInfo) (body : Tree.Function) :
    Follows o true fun f => chain f ((info.constructor?.map fun ctor => do
      constructorCode (← required info.owner) ctor).toList ++ [bodyCode body.body]) := by
  refine follows_chain (List.forall_mem_append.mpr ⟨fun p hp => ?_, by simpa using lowers_bodyCode _⟩)
  obtain ⟨ctor, -, rfl⟩ := Option.map_eq_some_iff.mp (Option.mem_toList.mp hp)
  exact .silent fun _ => lowers_constructorCode _ _

theorem writes_codes (o : Bool) : Codes (Writes o) where
  member info body := by
    refine Lowers.writes (lowers_inOrder ?_)
    rw [List.append_assoc]
    exact follows_append (Continues.follows inferInstance) (follows_member info body)
  closure body := Lowers.writes <| lowers_inOrder <| follows_chain <| by
    simpa using ⟨Makes.lowers inferInstance, lowers_bodyCode _⟩
  getter t field := by
    refine Makes.writes (v := 0) (made_ite ?_ ?_) <;> infer_instance
  setter t field := by
    refine Makes.writes (v := 0) (made_ite ?_ ?_) <;> infer_instance
  forwarding info target := by
    unfold forwardingCode
    dsimp only
    split
    · exact fun _ _ _ _ _ _ _ _ _ => ends_bind.mpr ends_throw
    · have := continues_forwarding (o := o) target info.named (length_forwarded info)
      rw [List.append_assoc]
      exact Makes.writes inferInstance
  initializer field value := by
    unfold initializerCode
    exact Makes.writes (v := 0) inferInstance
  folded field := by
    have : Makes o (do constant (← evaluating (Constant.foldField field))) 0 1 :=
      made_passive fun _ => inferInstance
    exact Makes.writes (v := 0) inferInstance

/-! ## The whole function -/

theorem startCode_op (b : Int) (i : Nat) : ∃ e, (startCode b).op i = .entry e ∧
    e.tryIndex = Graph.noTry ∧ handled (startCode b) i = none ∧
    (0 < i → ((startCode b).op i).isRoot = false) := by
  match i with
  | 0 => exact ⟨_, rfl, rfl, rfl, nofun⟩
  | 1 => exact ⟨_, rfl, rfl, rfl, fun _ => rfl⟩
  | n + 2 =>
    have hop : (startCode b).op (n + 2) = _ := Code.op_of_le (by simp [startCode])
    exact ⟨_, hop, rfl, by simp [handled, hop], fun _ => by rw [hop]; rfl⟩

theorem startCode_next (b : Int) (i : Nat) : ((startCode b).get i).next = none := by
  match i with
  | 0 => rfl
  | 1 => rfl
  | n + 2 =>
    rw [Code.get_of_le (by simp [startCode])]
    rfl

/-- A function starts outside of all try statements. -/
def startMark : Mark := ⟨Graph.noTry, 0⟩

/-- Nothing has been computed when a function starts. -/
def startNotes : Notes := fun _ => startMark

theorem sound_startCode (b : Int) : Sound o (startCode b) startNotes where
  size := by simp [startCode]
  root := ⟨b, rfl⟩
  start := ⟨b + 1, rfl⟩
  links i j hij := by
    rw [startCode_next] at hij
    cases hij
  owned i k j hij := by
    rw [startCode_next] at hij
    cases hij
  jumps i t hi := by
    obtain ⟨e, he, -⟩ := startCode_op b i
    rw [he] at hi
    cases hi
  sides i t hi := by
    obtain ⟨e, he, -⟩ := startCode_op b i
    rw [he] at hi
    cases hi
  inputs i u hu := by
    obtain ⟨e, he, -⟩ := startCode_op b i
    rw [he] at hu
    cases hu
  roots i := (startCode_op b i).choose_spec.2.2.2
  throws i hi := by
    obtain ⟨e, he, -⟩ := startCode_op b i
    rw [he] at hi
    cases hi

theorem regions_startState (settings : Settings) (store : Store) (place : Position) :
    Regions (startState settings store place) startNotes {} := by
  have hop := startCode_op settings.firstBlock
  have hcode : (startState settings store place).code = startCode settings.firstBlock := rfl
  constructor
  · intro i e _ he
    obtain ⟨e', he', ht, -⟩ := hop i
    rw [hcode, he'] at he
    cases he
    exact ⟨ht, .inl ht⟩
  · intro i a b t hi
    obtain ⟨e, he, -⟩ := hop i
    rw [hcode, he] at hi
    cases hi
  · intro i e t _ _ hi
    obtain ⟨e, -, -, hn, -⟩ := hop i
    rw [hcode, hn] at hi
    cases hi
  all_goals simp [startState, asHandled]

theorem ready_startState (settings : Settings) (store : Store) (place : Position) :
    Ready o (startState settings store place) startNotes {} [.single 1, .single 0] := by
  have hnext : ∀ i, ((startState settings store place).code.get i).next = none := fun i =>
    startCode_next _ i
  have hsize : (startState settings store place).code.size = 2 := rfl
  have hblocks : (startState settings store place).code.collect Op.blockId =
      [settings.firstBlock, settings.firstBlock + 1] := rfl
  refine ⟨⟨sound_startCode _, ⟨?_, ?_, ?_, ?_⟩, ⟨List.nodup_nil, nofun⟩, List.nodup_nil, ⟨?_, ?_⟩,
    nofun, regions_startState settings store place⟩, rfl⟩
  · exact (by decide : [1, 0].Nodup)
  · exact (by decide : [1, 0].Nodup)
  · rintro f (_ | ⟨_, _ | ⟨_, ⟨⟩⟩⟩) e ⟨⟩
    all_goals exact ⟨by simp [hsize], fun i => by simp [hnext]⟩
  · rintro f (_ | ⟨_, _ | ⟨_, ⟨⟩⟩⟩) x ⟨⟩
    all_goals exact ⟨by simp [hsize], hnext _⟩
  · rw [hblocks, List.nodup_cons, List.mem_singleton]
    exact ⟨by omega, List.nodup_singleton _⟩
  · rw [hblocks]
    intro b hb
    change b < settings.firstBlock + 2
    rw [List.mem_pair] at hb
    omega

theorem room_start (henv : env.within = []) (he : o = true → env.settings.stackChecks = true) :
    Room o true env {} startMark ⟨Graph.noTry, 1⟩ :=
  ⟨⟨rfl, zero_lt_one⟩, nofun, he, fun _ => rfl, fun _ => by rw [henv]; rfl⟩

theorem sound_functionBody {info : FunctionInfo} (henv : env.within = [])
    (he : o = true → env.settings.stackChecks = true) (hm : Writes o m) :
    Ends env (functionBody info m) (startState settings store place) fun _ t =>
      ∃ γ, Inv o t γ {} [.single 0] ∧ Pass (startState settings store place) startNotes t γ := by
  refine (ends_functionBody (hm env _ _ _ _ _ _ (ready_startState settings store place)
    (room_start henv he))).mono ?_
  rintro _ _ ⟨body, s1, ⟨γ1, h1⟩, -, rfl⟩
  obtain ⟨_, sp1⟩ := h1.spans
  have hentry : Placed (fun _ => true) s1.code γ1 startMark 1 :=
    Placed.step ⟨zero_lt_one, by simp [startState, startCode], rfl, rfl⟩ h1.step
  obtain ⟨hi2, st2, -⟩ := h1.inv.swap.append hentry.spans sp1
  exact ⟨γ1, hi2.forget, h1.toPass.trans (.of_around st2 rfl)⟩

theorem targets_of_not_root {op : Op} {j : Nat} (h : op.isRoot = false) (hj : j ∈ op.targets) :
    op = .goto j ∨ j ∈ op.sides := by
  unfold Op.targets at hj
  split at hj
  · cases h
  · exact .inl (by rw [List.mem_singleton.mp hj])
  · exact .inr hj
  · cases hj

theorem kinds_exclusive (op : Op) : (op.isJoin = true → op.asEntry.isSome = true ∧
      op.isTarget = false ∧ op.isHandler = false ∧ op.isRoot = false) ∧
    (op.isTarget = true → op.asEntry.isSome = true ∧ op.isHandler = false ∧ op.isRoot = false) ∧
    (op.isHandler = true → op.asEntry.isSome = true ∧ op.isRoot = false) := by
  rcases op with ⟨kind, _, _⟩ | _
  · cases kind <;> simp [Op.isJoin, Op.isTarget, Op.isHandler, Op.isRoot, Op.asEntry]
  all_goals simp [Op.isJoin, Op.isTarget, Op.isHandler]

theorem Sound.ahead {c : Code} {i j : Nat} (h : Sound o c γ) (hi : 0 < i) (hj : j ∈ (c.op i).targets) :
    IsBlock c j ∧ ∃ kind, Ahead kind c γ (γ i) (c.get i).continues j := by
  have hentry : (c.op j).asEntry.isSome = true → ∃ e, c.op j = .entry e := by
    cases c.op j <;> simp [Op.asEntry]
  rcases targets_of_not_root (h.roots i hi) hj with hgoto | hside
  · have hahead := h.jumps i j hgoto
    exact ⟨⟨hahead.lt, hentry ((kinds_exclusive _).1 hahead.kind).1⟩, _, hahead⟩
  · have hahead := h.sides i j hside
    exact ⟨⟨hahead.lt, hentry ((kinds_exclusive _).2.1 hahead.kind).1⟩, _, hahead⟩

/-- A graph is made of the code of its function. -/
theorem build_assembled {id : Nat} {store' : Store} {g : Graph}
    (h : (build settings id).run store = (.ok g, store')) :
    ∃ st place t defaults γ, (t.graph id defaults).discover = (g, none) ∧ Inv false t γ {} [.single 0] ∧
      Pass (startState settings st place) startNotes t γ := by
  obtain ⟨p, env, st, place, t, hcode, -, hwithin, hrun, hg⟩ :=
    build_eq_ok h (gives_plan (writes_codes false) _ _)
  obtain ⟨γ, hi, hpass⟩ := (sound_functionBody hwithin (by simp) hcode).run hrun
  exact ⟨st, place, t, p.defaults, γ, hg, hi, hpass⟩

end Flowgraph.Lowering.Assembly
