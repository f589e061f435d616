import Mathlib.Logic.Function.Basic
import WaccArm.Proofs.Stack.Flow

namespace WaccArm

theorem Instr.accesses_of_returns {i : Instr} (h : i.returns = true) : i.accesses = false := by
  obtain ⟨opcode, cond, operands⟩ := i
  unfold returns at h
  split at h
  · rename_i rs hop hoperands
    cases hop
    cases hoperands
    rfl
  · cases h

namespace Emission

/-- Displacements of the stack pointer at the lines and marks of a body, such that
* the body starts at the entry point and returns from there;
* one line leads to the next as the instruction says, also where its condition does not hold;
* a jump goes to a label of the body, at the displacement it started from;
* a mark stands at the displacement it tells, and in front of everything that names a place by its
  distance from the stack pointer. -/
structure Balanced (δ : Nat → Int) (body : List Item) : Prop where
  entry : δ 0 = 0
  returns : ∀ k i, body[k]? = some (.line (.instr i)) → i.returns = true → δ k = 0
  falls : ∀ k i, body[k]? = some (.line (.instr i)) → i.returns = false →
    ∃ n, i.lowers? = some n ∧ (i.cond = .always ∨ n = 0) ∧ δ (k + 1) = δ k + n
  passes : ∀ k l, body[k]? = some (.line l) → (∀ i, l ≠ .instr i) → δ (k + 1) = δ k
  jumps : ∀ k i name, body[k]? = some (.line (.instr i)) → i.jump? = some name →
    (∃ j : Nat, body[j]? = some (.line (.label name))) ∧
      ∀ j : Nat, body[j]? = some (.line (.label name)) → δ j = δ k
  marks : ∀ k D, body[k]? = some (.mark D) → δ k = D ∧ δ (k + 1) = D
  accesses : ∀ k i, body[k]? = some (.line (.instr i)) → i.accesses = true →
    ∃ j D, k = j + 1 ∧ body[j]? = some (.mark D)

/-- What the displacement at an item has to do with the one behind it, where each label has the given
one. -/
def Item.Leads (levels : String → Int) (D E : Int) : Item → Prop
  | .mark F => D = F ∧ E = F
  | .line (.label name) => levels name = D ∧ E = D
  | .line .literalPool => E = D
  | .line (.instr i) =>
    (i.returns = true → D = 0) ∧
    (i.returns = false → (∃ n, i.lowers? = some n ∧ (i.cond = .always ∨ n = 0) ∧ E = D + n) ∧
      ∀ name, i.jump? = some name → levels name = D)

structure Follows (levels : String → Int) (δ : Nat → Int) (items : List Item) : Prop where
  leads : ∀ k x, items[k]? = some x → Item.Leads levels (δ k) (δ (k + 1)) x
  accesses : ∀ k i, items[k]? = some (.line (.instr i)) → i.accesses = true →
    ∃ j D, k = j + 1 ∧ items[j]? = some (.mark D)

/-- A first displacement in front of others. -/
def before (D : Int) (δ : Nat → Int) : Nat → Int
  | 0 => D
  | k + 1 => δ k

section

variable {levels : String → Int} {δ : Nat → Int} {items : List Item} {D E : Int}

/-- An item is put in front. -/
theorem Follows.cons {x : Item} (h : Follows levels δ items) (hx : x.Leads levels D (δ 0))
    (haccess : ∀ i, x = .line (.instr i) → i.accesses = false) :
    Follows levels (before D δ) (x :: items) := by
  refine ⟨?_, ?_⟩
  · intro k y hy
    cases k with
    | zero =>
      cases hy
      exact hx
    | succ k => exact h.leads k y hy
  · intro k i hi hitrue
    cases k with
    | zero =>
      rw [List.getElem?_cons_zero, Option.some.injEq] at hi
      rw [haccess i hi] at hitrue
      cases hitrue
    | succ k =>
      obtain ⟨j, F, rfl, hj⟩ := h.accesses k i hi hitrue
      exact ⟨j + 1, F, rfl, hj⟩

theorem leads_of_steady {i : Instr} (h : i.Steady) : Item.Leads levels D D (.line (.instr i)) := by
  refine ⟨fun hreturns => ?_, fun _ => ⟨⟨0, h.lowers?, .inr rfl, (Int.add_zero D).symm⟩, ?_⟩⟩
  · rw [h.returns] at hreturns
    cases hreturns
  · rw [h.jump?]
    nofun

theorem Follows.access {i : Instr} (h : Follows levels δ items) (hzero : δ 0 = D) (hi : i.Steady) :
    Follows levels (before D (before D δ)) (.mark D :: .line (.instr i) :: items) := by
  refine ⟨?_, ?_⟩
  · rintro (_ | _ | k) x hx
    · cases hx
      exact ⟨rfl, rfl⟩
    · cases hx
      change Item.Leads levels D (δ 0) (.line (.instr i))
      rw [hzero]
      exact leads_of_steady hi
    · exact h.leads k x hx
  · rintro (_ | _ | k) j hj htrue
    · cases hj
    · exact ⟨0, D, rfl, rfl⟩
    · obtain ⟨m, F, rfl, hm⟩ := h.accesses k j hj htrue
      exact ⟨m + 2, F, rfl, hm⟩

/-- Where code flows from one displacement to another, every item has one. -/
theorem Flow.follows (h : Flow levels D items E) :
    ∃ δ : Nat → Int, δ 0 = D ∧ Follows levels δ items := by
  induction h with
  | nil D => exact ⟨fun _ => D, rfl, nofun, nofun⟩
  | @mark D E items _ ih =>
    obtain ⟨δ, hzero, hδ⟩ := ih
    exact ⟨before D δ, rfl, hδ.cons ⟨rfl, hzero⟩ nofun⟩
  | @access D E i items hsteady _ ih =>
    obtain ⟨δ, hzero, hδ⟩ := ih
    exact ⟨_, rfl, hδ.access hzero hsteady⟩
  | @label D E items name hlevel _ ih =>
    obtain ⟨δ, hzero, hδ⟩ := ih
    exact ⟨before D δ, rfl, hδ.cons ⟨hlevel, hzero⟩ nofun⟩
  | @pool D E items _ ih =>
    obtain ⟨δ, hzero, hδ⟩ := ih
    exact ⟨before D δ, rfl, hδ.cons hzero nofun⟩
  | @instr D E n i items haccesses hreturns hlowers hcond hjump _ ih =>
    obtain ⟨δ, hzero, hδ⟩ := ih
    refine ⟨before D δ, rfl, hδ.cons ⟨fun htrue => ?_, fun _ => ?_⟩ ?_⟩
    · rw [hreturns] at htrue
      cases htrue
    · exact ⟨⟨n, hlowers, hcond, hzero⟩, hjump⟩
    · rintro i ⟨⟩
      exact haccesses
  | @ret D E i items hreturns _ ih =>
    obtain ⟨δ, hzero, hδ⟩ := ih
    refine ⟨before 0 δ, rfl, hδ.cons ⟨fun _ => rfl, fun hfalse => ?_⟩ ?_⟩
    · rw [hreturns] at hfalse
      cases hfalse
    · rintro i ⟨⟩
      exact Instr.accesses_of_returns hreturns

/-- Code that follows its levels is balanced. -/
theorem Follows.balanced {known : String → Prop} {labels : List String}
    (h : Follows levels δ items) (hzero : δ 0 = 0) (hclosed : Closed known labels items)
    (hlabels : ∀ name ∈ labels, .label name ∈ Item.code items) : Balanced δ items := by
  refine ⟨hzero, ?_, ?_, ?_, ?_, fun k D hk => h.leads k _ hk, h.accesses⟩
  · exact fun k i hk hreturns => (h.leads k _ hk).1 hreturns
  · exact fun k i hk hreturns => ((h.leads k _ hk).2 hreturns).1
  · rintro k (name | i | _) hk hline
    · exact (h.leads k _ hk).2
    · exact absurd rfl (hline i)
    · exact h.leads k _ hk
  · intro k i name hk hjump
    rcases hclosed i (Item.mem_code.2 (List.mem_of_getElem? hk)) with hserved | ⟨_, cond, rfl, hname⟩
    · rw [Instr.jump?, if_neg hserved.1] at hjump
      cases hjump
    · cases hjump
      have hlevel := ((h.leads k _ hk).2 rfl).2 name rfl
      refine ⟨List.getElem?_of_mem (Item.mem_code.1 (hlabels name hname)), fun j hj => ?_⟩
      rw [← hlevel, ← (h.leads j _ hj).1]

end

/-- The most bytes that the blocks of a body take at one point. -/
def frameBytes (s : Checked.Stmt) : Nat := blockSize s + nestedBytes s

/-- The displacements of labels that were made on demand, by their numbers. -/
theorem exists_levels (own : Nat → Int) (em em' : Emitter) : ∃ levels, Agrees levels own em em' :=
  ⟨Function.extend freshLabel own fun _ => 0, fun k _ _ => freshLabel_injective.extend_apply _ _ k⟩

/-- The code of a body keeps the stack in balance if its ending returns. -/
theorem BodyEmitted.balanced {s : Checked.Stmt} {slots : Chain Slot} {ending : List Instr}
    {em em' : Emitter} {body : List Item} (h : BodyEmitted s slots ending em body em')
    (hframe : frameBytes s < 2 ^ 31) (hending : ∀ levels, Flow levels 0 (Item.instrs ending) 0)
    (hserved : ∀ i ∈ ending, i.Served fun _ => True) : ∃ δ, Balanced δ body := by
  have hcovered : em'.Covered fun _ => True :=
    ⟨fun _ _ => trivial, fun _ _ => trivial, fun _ _ => trivial⟩
  have hclosed := h.closed hcovered (fun _ _ _ _ => trivial) hserved
  have hflow : ∃ levels, Flow levels 0 body 0 := by
    cases h with
    | block hitems =>
      have hentry : (Context.inside { slots } (blockSize s)).frame.displacement = blockSize s :=
        Int.zero_add _
      rw [frameBytes] at hframe
      obtain ⟨own, hown⟩ := hitems.flow (by omega) (by omega)
      obtain ⟨levels, hlevels⟩ := exists_levels own em em'
      have hblock := hitems.block_flow (hown levels hlevels)
      exact ⟨levels, .append (.append hblock (hending levels)) (.pool (.nil 0))⟩
  obtain ⟨levels, hflow⟩ := hflow
  obtain ⟨δ, hzero, hfollows⟩ := hflow.follows
  exact ⟨δ, hfollows.balanced hzero hclosed fun _ => Assembly.mem_defined.1⟩

/-- Every procedure of a program is balanced. -/
theorem FuncsEmitted.balanced {fs : List Checked.Func} {em em' : Emitter}
    {procedures : List Procedure} (h : FuncsEmitted fs em procedures em')
    (hframes : ∀ f ∈ fs, frameBytes f.body < 2 ^ 31) :
    ∀ q ∈ procedures, ∃ δ, Balanced δ q.body := by
  induction h with
  | nil => exact nofun
  | cons hbody _ ih =>
    rw [List.forall_mem_cons] at hframes ⊢
    refine ⟨hbody.balanced hframes.1 (fun levels => .ret rfl (.nil 0)) ?_, ih hframes.2⟩
    exact List.forall_mem_singleton.2 Instr.served_pop

end Emission

open Emission

/-- Every file that is generated is made of procedures that keep the stack in balance, one for each
function and one for the body, and of routines. -/
theorem generated_code_balanced {p : Checked.Program} {file : Assembly} (hok : generate p = .ok file)
    (hframes : ∀ s ∈ p.body :: p.funcs.map Checked.Func.body, frameBytes s < 2 ^ 31) :
    ∃ procedures em labelOf, ProgramEmitted p {} procedures em ∧
      file.code = (procedures.map Procedure.code).flatten ++ em.routines.flatMap (·.code labelOf) ∧
      ∀ q ∈ procedures, ∃ δ, Balanced δ q.body := by
  obtain ⟨procedures, em, labelOf, hemitted, hcode⟩ := generate_code hok
  refine ⟨procedures, em, labelOf, hemitted, hcode, ?_⟩
  rw [List.forall_mem_cons, List.forall_mem_map] at hframes
  obtain ⟨hfuncs, hmain⟩ := hemitted
  rw [List.forall_mem_append, List.forall_mem_singleton]
  refine ⟨hfuncs.balanced hframes.2, hmain.balanced hframes.1 (fun levels => ?_) ?_⟩
  · exact .of_still (Instr.still_ldr (by decide) rfl) (.ret rfl (.nil 0))
  · simp [Instr.served_ldr, Instr.served_pop]

namespace Nested

def y : Checked.Expr := .var .int "y"

/-- `char c = 'a'; if y == 1 then return y else y = y - 1 fi` -/
def round : Checked.Stmt :=
  .seq () [.declare () .char "c" (.char .char 97),
    .branch () (.binary .bool .eq y (.int .int 1)) (.ret () y)
      (.assign () y (.binary .int .sub y (.int .int 1)))]

/-- `int f(int x) is int y = x; while y > 0 do … done; return y end` and `int z = call f(3)` -/
def program : Checked.Program where
  funcs := [⟨"f", "f_f", [⟨"x", .int⟩], .int,
    .seq () [.declare () .int "y" (.var .int "x"),
      .loop () (.binary .bool .gt y (.int .int 0)) round, .ret () y]⟩]
  body := .declare () .int "z" (.call .int "f_f" [.int .int 3])

end Nested

/-- A function that returns from two blocks deep inside a loop, and a body that calls it. -/
theorem nested_code_balanced : ∃ file procedures em labelOf, generate Nested.program = .ok file ∧
    ProgramEmitted Nested.program {} procedures em ∧
    file.code = (procedures.map Procedure.code).flatten ++ em.routines.flatMap (·.code labelOf) ∧
    ∀ q ∈ procedures, ∃ δ, Balanced δ q.body := by
  obtain ⟨file, hok⟩ := except_eq_ok_of_isOk (x := generate Nested.program) (by decide +kernel)
  obtain ⟨procedures, em, labelOf, hbalanced⟩ := generated_code_balanced hok (by decide)
  exact ⟨file, procedures, em, labelOf, hok, hbalanced⟩

end WaccArm
