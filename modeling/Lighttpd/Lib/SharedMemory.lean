import Mathlib.Logic.Function.Basic

/-!
# Programs over a memory that they share

A program looks at fields of a memory one at a time and writes some of them in one step. Programs
that run in turns disturb each other when a step of one changes what another one sees later.
`eval_run` says that programs that do not disturb each other come to what they come to alone.
-/

namespace SharedMemory

universe u v w

variable {F : Type u} {V : F → Type v} {R S : Type w}

/-- A value for every field. -/
abbrev Memory (V : F → Type v) := ∀ f, V f

/-- The values that a step writes. -/
abbrev Update (V : F → Type v) := ∀ f, Option (V f)

/-- The memory after a step that writes. -/
def Memory.apply (m : Memory V) (u : Update V) : Memory V := fun f => (u f).getD (m f)

/-- The update of one field. -/
def Update.single [DecidableEq F] (f : F) (x : V f) : Update V :=
  Function.update (fun _ => none) f (some x)

theorem Memory.apply_single [DecidableEq F] (m : Memory V) (f : F) (x : V f) :
    m.apply (Update.single f x) = Function.update m f x := by
  funext g
  by_cases h : g = f
  · subst h
    simp [Memory.apply, Update.single]
  · simp [Memory.apply, Update.single, h]

/-- A program with a result. A look at a field shows a view of it. -/
inductive Prog (V : F → Type v) (R : Type w) : Type (max u (v + 1) w)
  | done (r : R)
  | look (f : F) {α : Type v} (view : V f → α) (next : α → Prog V R)
  | write (u : Update V) (next : Prog V R)

namespace Prog

/-- A program with another one behind it. -/
def bind : Prog V R → (R → Prog V S) → Prog V S
  | done r, q => q r
  | look f view next, q => look f view fun x => (next x).bind q
  | write u next, q => write u (next.bind q)

/-- One field is written. -/
def set [DecidableEq F] (f : F) (x : V f) (next : Prog V R) : Prog V R :=
  write (Update.single f x) next

/-- One field is read and written. -/
def modify [DecidableEq F] (f : F) (g : V f → V f) (next : Prog V R) : Prog V R :=
  look f id fun x => set f (g x) next

/-- What the program comes to alone. -/
def eval : Prog V R → Memory V → R
  | done r, _ => r
  | look f view next, m => (next (view (m f))).eval m
  | write u next, m => next.eval (m.apply u)

/-- The memory behind the program, alone. -/
def after : Prog V R → Memory V → Memory V
  | done _, m => m
  | look f view next, m => (next (view (m f))).after m
  | write u next, m => next.after (m.apply u)

/-- The result and the memory that the program leaves, alone. -/
def final (p : Prog V R) (m : Memory V) : R × Memory V := (p.eval m, p.after m)

/-- One step. -/
def step : Prog V R → Memory V → Prog V R × Memory V
  | done r, m => (done r, m)
  | look f view next, m => (next (view (m f)), m)
  | write u next, m => (next, m.apply u)

/-- From two memories the program sees the same at every look. -/
def SeesSame : Prog V R → Memory V → Memory V → Prop
  | done _, _, _ => True
  | look f view next, m, m' => view (m f) = view (m' f) ∧ (next (view (m f))).SeesSame m m'
  | write u next, m, m' => next.SeesSame (m.apply u) (m'.apply u)

@[simp] theorem eval_done (r : R) (m : Memory V) : (done r : Prog V R).eval m = r := rfl

@[simp] theorem eval_look {α : Type v} (f : F) (view : V f → α) (next : α → Prog V R)
    (m : Memory V) : (look f view next).eval m = (next (view (m f))).eval m := rfl

@[simp] theorem eval_write (u : Update V) (next : Prog V R) (m : Memory V) :
    (write u next).eval m = next.eval (m.apply u) := rfl

@[simp] theorem final_done (r : R) (m : Memory V) : (done r : Prog V R).final m = (r, m) := rfl

@[simp] theorem final_look {α : Type v} (f : F) (view : V f → α) (next : α → Prog V R)
    (m : Memory V) : (look f view next).final m = (next (view (m f))).final m := rfl

@[simp] theorem final_write (u : Update V) (next : Prog V R) (m : Memory V) :
    (write u next).final m = next.final (m.apply u) := rfl

section Fields

variable [DecidableEq F]

@[simp] theorem eval_set (f : F) (x : V f) (next : Prog V R) (m : Memory V) :
    (set f x next).eval m = next.eval (Function.update m f x) := by
  rw [set, eval_write, Memory.apply_single]

@[simp] theorem eval_modify (f : F) (g : V f → V f) (next : Prog V R) (m : Memory V) :
    (modify f g next).eval m = next.eval (Function.update m f (g (m f))) := by
  rw [modify, eval_look, eval_set, id]

@[simp] theorem final_set (f : F) (x : V f) (next : Prog V R) (m : Memory V) :
    (set f x next).final m = next.final (Function.update m f x) := by
  rw [set, final_write, Memory.apply_single]

@[simp] theorem final_modify (f : F) (g : V f → V f) (next : Prog V R) (m : Memory V) :
    (modify f g next).final m = next.final (Function.update m f (g (m f))) := by
  rw [modify, final_look, final_set, id]

end Fields

theorem eval_step (p : Prog V R) (m : Memory V) : (p.step m).1.eval (p.step m).2 = p.eval m := by
  cases p <;> rfl

theorem SeesSame.eval_eq {p : Prog V R} : ∀ {m m' : Memory V}, p.SeesSame m m' →
    p.eval m = p.eval m' := by
  induction p with
  | done r => intro m m' _; rfl
  | look f view next ih =>
    rintro m m' ⟨hview, hnext⟩
    rw [eval, eval, ← hview]
    exact ih _ hnext
  | write u next ih =>
    intro m m' h
    exact ih h

end Prog

section Threads

variable {ι : Type*} [DecidableEq ι]

/-- What each thread still has to do, and the memory. -/
structure Threads (ι : Type*) (V : F → Type v) (R : Type w) where
  progs : ι → Prog V R
  memory : Memory V

namespace Threads

/-- A step of one thread. -/
def step (s : Threads ι V R) (i : ι) : Threads ι V R :=
  let t := (s.progs i).step s.memory
  ⟨Function.update s.progs i t.1, t.2⟩

/-- The steps of a schedule. -/
def run (s : Threads ι V R) : List ι → Threads ι V R
  | [] => s
  | i :: is => (s.step i).run is

/-- The step changes nothing that another thread sees when it goes on. -/
def Undisturbing (s : Threads ι V R) (i : ι) : Prop :=
  ∀ j, j ≠ i → (s.progs j).SeesSame s.memory (s.step i).memory

/-- No step of a schedule changes anything that another thread sees when it goes on. -/
def Undisturbed (s : Threads ι V R) : List ι → Prop
  | [] => True
  | i :: is => s.Undisturbing i ∧ (s.step i).Undisturbed is

theorem eval_step {s : Threads ι V R} {i : ι} (h : s.Undisturbing i) (j : ι) :
    ((s.step i).progs j).eval (s.step i).memory = (s.progs j).eval s.memory := by
  by_cases hj : j = i
  · subst hj
    have hprog : (s.step j).progs j = ((s.progs j).step s.memory).1 := Function.update_self _ _ _
    rw [hprog]
    exact (s.progs j).eval_step s.memory
  · have hprog : (s.step i).progs j = s.progs j := Function.update_of_ne hj _ _
    rw [hprog]
    exact (h j hj).eval_eq.symm

theorem eval_run : ∀ (is : List ι) {s : Threads ι V R}, s.Undisturbed is → ∀ j,
    ((s.run is).progs j).eval (s.run is).memory = (s.progs j).eval s.memory
  | [], _, _, _ => rfl
  | _ :: is, _, h, j => (eval_run is h.2 j).trans (eval_step h.1 j)

theorem result_run {s : Threads ι V R} {is : List ι} (h : s.Undisturbed is) {j : ι} {r : R}
    (hr : (s.run is).progs j = .done r) : r = (s.progs j).eval s.memory := by
  rw [← eval_run is h j, hr]
  rfl

end Threads

end Threads

end SharedMemory
