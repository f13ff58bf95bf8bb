import BxToolchain.Proofs.Flow.Renaming
import BxToolchain.Proofs.Tac.Arithmetic
import BxToolchain.Proofs.Tac.ReadingBack
import BxToolchain.Workload.Program
import Mathlib.Data.Nat.Fib.Basic

namespace BxToolchain.Workload

open Tac

def constant (d : String) (n : Int) : Instr := { opcode := .const, dest := .name d, arg1 := .int n }

def binary (op : BinOp) (d x y : String) : Instr :=
  { opcode := .binary op, dest := .name d, arg1 := .name x, arg2 := .name y }

def called (d : String) : Instr :=
  { opcode := .call, dest := .name d, arg1 := .name "@fib", arg2 := .int 1 }

def returned (x : String) : Instr := { opcode := .ret, arg1 := .name x }

def EndsAt (procs : Table String Procedure) (a : Activation) (f : Frame) (v : Int) : Prop :=
  ∀ w, ∃ w', Finishes procs false a f w (.int (wrap v)) w' ∧ w'.globals = w.globals

def Ends (procs : Table String Procedure) (a : Activation) (pc : Nat) (temps : Temps)
    (params : List Datum) (v : Int) : Prop :=
  ∀ f : Frame, f.pc = pc → f.temps = temps → f.params = params → EndsAt procs a f v

def Gives (procs : Table String Procedure) (args : List Datum) (v : Int) : Prop :=
  ∀ options w, ∃ w', Returns procs false options "@fib" args w (.int (wrap v)) w' ∧
    w'.globals = w.globals

variable {procs : Table String Procedure} {a : Activation} {f f1 : Frame} {i : Instr} {o : Outcome}
  {pc k : Nat} {temps : Temps} {params : List Datum} {u : Datum} {d x y l : String} {m n r v : Int}

theorem exists_step (hi : a.code[f.pc]? = some i) (hshown : i.isBroken = false)
    (h : ∀ w, perform a i { f with pc := f.pc + 1 } w = (.ok o,w)) (w : World) :
    ∃ w1, step a f w = (.ok o,w1) ∧ w1.globals = w.globals := by
  simp only [step,hi,Instr.text?,hshown,h]
  cases o <;> cases a.options.showInstrs <;> cases a.options.showProcs <;> exact ⟨_,rfl,rfl⟩

theorem EndsAt.next (hi : a.code[f.pc]? = some i) (hshown : i.isBroken = false)
    (h : ∀ w, perform a i { f with pc := f.pc + 1 } w = (.ok (.next f1),w))
    (hrest : EndsAt procs a f1 v) : EndsAt procs a f v := by
  intro w
  obtain ⟨w1,hstep,hw1⟩ := exists_step hi hshown h w
  obtain ⟨w2,hend,hw2⟩ := hrest w1
  exact ⟨w2,.next hstep hend,hw2.trans hw1⟩

theorem write_temp (hd : isTemp d = true) (n : Int) (temps : Temps) (w : World) :
    w.write temps d (.int (wrap n)) = .ok (w,temps.insert d (.int (wrap n))) := by
  have hword : checkWord (.int (wrap n)) = .ok () := by
    obtain ⟨hlow,hhigh⟩ := mem_wrap n
    simp [checkWord,Datum.int?,hlow]
    omega
  exact World.write_eq_ok.2
    ⟨Flow.isVariable_of_isTemp hd,hword,by simp [Flow.isGlobal_of_isTemp hd]⟩

theorem store_temp (hd : isTemp d = true) (n : Int) (f : Frame) (w : World) :
    store w f (.name d) (.int (wrap n)) =
      (.ok (.next { f with temps := f.temps.insert d (.int (wrap n)) }),w) :=
  store_eq_ok.2 ⟨_,write_temp hd n f.temps w,rfl⟩

theorem read_temp (hx : isTemp x = true) (h : temps.get? x = some u) (w : World) :
    w.read temps x = .ok u :=
  (World.read_eq_ok (Flow.isGlobal_of_isTemp hx)).2 h

namespace Ends

theorem label (hi : a.code[pc]? = some (.ofLabel l)) (h : Ends procs a (pc + 1) temps params v) :
    Ends procs a pc temps params v := by
  rintro f rfl rfl rfl
  exact .next hi rfl (fun _ => perform_label rfl) (h _ rfl rfl rfl)

theorem constant (hi : a.code[pc]? = some (constant d n))
    (h : Ends procs a (pc + 1) (temps.insert d (.int (wrap n))) params v)
    (hd : isTemp d = true := by decide) : Ends procs a pc temps params v := by
  rintro f rfl rfl rfl
  exact .next hi rfl (store_temp hd n _) (h _ rfl rfl rfl)

theorem binary (hi : a.code[pc]? = some (binary op d x y))
    (hop : op.apply a.options.memory m n = .ok (wrap r))
    (h : Ends procs a (pc + 1) (temps.insert d (.int (wrap r))) params v)
    (hm : temps.get? x = some (.int m) := by simp) (hn : temps.get? y = some (.int n) := by simp)
    (hd : isTemp d = true := by decide) (hx : isTemp x = true := by decide)
    (hy : isTemp y = true := by decide) : Ends procs a pc temps params v := by
  rintro f rfl rfl rfl
  refine .next hi rfl (fun w => ?_)
    (h { f with pc := f.pc + 1, temps := f.temps.insert d (.int (wrap r)) } rfl rfl rfl)
  simp only [perform,Workload.binary,Operand.text_name,read_temp hx hm w,read_temp hy hn w,bind,
    Except.bind,intOf,Datum.int?,hop]
  exact store_temp hd r _ w

theorem jumpTo (hi : a.code[pc]? = some (.jumpTo l)) (hl : a.labels.get? l = some k)
    (h : Ends procs a k temps params v) : Ends procs a pc temps params v := by
  rintro f rfl rfl rfl
  exact .next hi rfl (fun _ => (perform_jmp rfl).2 ⟨k,hl,rfl,rfl⟩) (h _ rfl rfl rfl)

theorem called (hi : a.code[pc]? = some (called d)) (hcall : Gives procs [u] n)
    (h : Ends procs a (pc + 1) (temps.insert d (.int (wrap n))) [] v)
    (hd : isTemp d = true := by decide) : Ends procs a pc temps [u] v := by
  rintro f rfl rfl hparams w
  let f1 : Frame := { f with pc := f.pc + 1, params := [] }
  let f2 : Frame := { f1 with temps := f.temps.insert d (.int (wrap n)) }
  have hperform (w : World) : perform a (Workload.called d) { f with pc := f.pc + 1 } w =
      (.ok (.call "@fib" [u] (.name d) f1),w) := by
    simp [perform,Workload.called,Operand.int?,hparams,startsWith,f1]
  have hread : (Operand.name d).read? = some d := by
    simp only [Operand.read?,Flow.ne_empty_of_isVariable (Flow.isVariable_of_isTemp hd)]
    rfl
  obtain ⟨w1,hstep,hw1⟩ := exists_step hi rfl hperform w
  obtain ⟨w2,⟨p,b,g,w3,hname,henter,hrun⟩,hw2⟩ := hcall a.inner w1
  have hresume : resume f1 (.name d) (.int (wrap n)) w2 = (.ok f2,w2) :=
    resume_eq_ok.2 (.inr ⟨d,_,hread,write_temp hd n _ w2,rfl⟩)
  obtain ⟨w4,hend,hw4⟩ := h f2 rfl rfl rfl w2
  exact ⟨w4,.call hstep hname henter hrun hresume hend,hw4.trans (hw2.trans hw1)⟩

theorem returned (hi : a.code[pc]? = some (returned x))
    (hv : temps.get? x = some (.int (wrap v)) := by simp) (hx : isTemp x = true := by decide) :
    Ends procs a pc temps params v := by
  rintro f rfl rfl rfl w
  obtain ⟨w1,hstep,hw1⟩ := exists_step hi rfl
    (fun w => (perform_ret rfl).2 ⟨_,read_temp hx hv w,rfl,rfl⟩) w
  exact ⟨w1,.done hstep nofun,hw1⟩

end Ends

end BxToolchain.Workload
