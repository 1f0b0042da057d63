import Lockstep.Proofs.SoundStore
import Lockstep.Thread

/-!
Inquiries among other threads.

Between two looks of an inquiry others may change the heap, in which it can only grow and stays sound. So an
inquiry that starts from sound variables only looks where sound references lead, takes what it finds there as
sound at that time, and comes to an answer that is sound when it has come to it.
-/

namespace Lockstep

theorem Yields.imp {α : Type} {P Q : α → Prop} {r : Except Fault α} (yields : Yields P r)
    (implies : ∀ a, P a → Q a) : Yields Q r := by
  cases r with
  | error e => exact yields
  | ok a => exact implies a yields

namespace Inquiry

/-- An inquiry at a time when its heap is `h`: its answer is sound, or it looks where a sound reference leads
and goes on in this way with any sound value that it may be told, whatever sound heap `h` has grown to by
then. -/
def SoundIn : Heap → Inquiry → Prop
  | h, answer r => Yields (·.SoundIn h) r
  | h, look a next => (∃ t, (Value.ref a t).SoundIn h) ∧
    ∀ k, h.Grows k → k.Sound → ∀ r, Yields (·.SoundIn k) r → (next r).SoundIn k

namespace SoundIn

variable {h k : Heap} {q : Inquiry}

theorem mono (grows : h.Grows k) (sound : q.SoundIn h) : q.SoundIn k := by
  cases q with
  | answer r => exact Yields.imp sound fun v value => value.mono grows
  | look a next =>
    obtain ⟨⟨t, reference⟩, goes⟩ := sound
    exact ⟨⟨t, reference.mono grows⟩, fun l later => goes l (grows.trans later)⟩

theorem bind {rest : Except Fault Value → Inquiry} (heap : h.Sound) (sound : q.SoundIn h)
    (goes : ∀ k, h.Grows k → k.Sound → ∀ r, Yields (·.SoundIn k) r → (rest r).SoundIn k) :
    (q.bind rest).SoundIn h := by
  induction q generalizing h with
  | answer r => exact goes h (.refl h) heap r sound
  | look a next ih =>
    refine ⟨sound.1, fun k grows later r found => ?_⟩
    exact ih r later (sound.2 k grows later r found) fun l more => goes l (grows.trans more)

theorem andThen {α : Type} {P : Heap → α → Prop} {check : Value → Except Fault α} {rest : α → Inquiry}
    (heap : h.Sound) (sound : q.SoundIn h)
    (checked : ∀ k (v : Value), v.SoundIn k → Yields (P k) (check v))
    (goes : ∀ k, h.Grows k → k.Sound → ∀ a, P k a → (rest a).SoundIn k) :
    (q.andThen check rest).SoundIn h := by
  refine sound.bind heap fun k grows later r found => ?_
  have outcome := found.bind (checked k)
  cases result : r >>= check with
  | ok a => exact goes k grows later a (outcome.of_ok result)
  | error e => exact outcome.of_error result

/-- What a look finds is what the inquiry can go on with. -/
theorem look {a : Nat} {next : Except Fault Value → Inquiry} (heap : h.Sound)
    (sound : (Inquiry.look a next).SoundIn h) : (next (h.get a)).SoundIn h := by
  obtain ⟨⟨t, reference⟩, goes⟩ := sound
  exact goes h (.refl h) heap _ (Heap.get_yields heap reference)

end SoundIn

end Inquiry

section Sound

variable {σ : Symbols} {h : Heap} (heap : h.Sound) (symbols : σ.SoundIn h)
include heap symbols

theorem Expr.inquiry_soundIn {e : Expr} (free : e.refFree) : (e.inquiry σ).SoundIn h := by
  -- the heap may have grown by the time that the second operand is asked for
  induction e generalizing h with
  | const v => exact eval_yields heap symbols free
  | var x => exact eval_yields heap symbols free
  | arith op l r ihl ihr =>
    simp only [refFree, Bool.and_eq_true] at free
    refine (ihl heap symbols free.1).andThen heap (fun _ v _ => v.expectInt_yields .first) ?_
    intro k grows later a _
    refine (ihr later (symbols.mono grows) free.2).andThen later
      (fun _ v _ => v.expectInt_yields .second) ?_
    exact fun l _ _ b _ => arithmetic_yields op _ _ l a b
  | logic op l r ihl ihr =>
    simp only [refFree, Bool.and_eq_true] at free
    refine (ihl heap symbols free.1).andThen heap (fun _ v _ => v.expectBool_yields .first) ?_
    intro k grows later a _
    refine (ihr later (symbols.mono grows) free.2).andThen later
      (fun _ v _ => v.expectBool_yields .second) ?_
    exact fun l _ _ b _ => trivial
  | rel op l r ihl ihr =>
    simp only [refFree, Bool.and_eq_true] at free
    refine (ihl heap symbols free.1).andThen heap (fun _ v _ => op.accept_yields v) ?_
    intro k grows later a _
    refine (ihr later (symbols.mono grows) free.2).andThen (P := fun _ _ => True) later
      (fun _ _ _ => trivial) ?_
    exact fun l _ _ b _ => op.compare_yields l a b
  | read e ih =>
    refine (ih heap symbols free).andThen heap (fun _ v => v.expectAddress_yields) ?_
    exact fun k _ _ a reference => ⟨reference, fun _ _ _ r found => found⟩

theorem Stmt.inquiry_soundIn {s : Stmt} (free : s.refFree) : (s.inquiry σ).SoundIn h := by
  have value {e : Expr} (free : e.refFree) : (e.inquiry σ).SoundIn h := e.inquiry_soundIn heap symbols free
  cases s with
  | assign x e => exact value free
  | ite g a b =>
    simp only [refFree, Bool.and_eq_true] at free
    exact value free.1.1
  | loop g b =>
    simp only [refFree, Bool.and_eq_true] at free
    exact value free.1
  | print e => exact value free
  | alloc x e =>
    cases target : σ.referenceOf x with
    | error err =>
      simp only [inquiry, target]
      exact (σ.referenceOf_yields x).of_error target
    | ok r =>
      simp only [inquiry, target]
      exact value free
  | write x e =>
    cases target : σ.referenceOf x with
    | error err =>
      simp only [inquiry, target]
      exact (σ.referenceOf_yields x).of_error target
    | ok r =>
      simp only [inquiry, target]
      have bound := symbols x _ (Symbols.referenceOf_eq_ok_iff.mp target)
      refine ⟨⟨r.2, bound⟩, fun k grows later found yields => ?_⟩
      cases found with
      | error err => exact yields
      | ok old => exact e.inquiry_soundIn later (symbols.mono grows) free
  | openFile f => exact value free
  | readInt f x =>
    cases target : σ.checkReadTarget x with
    | error err =>
      simp only [inquiry, target]
      exact (σ.checkReadTarget_yields x).of_error target
    | ok r =>
      simp only [inquiry, target]
      exact value free
  | closeFile f => exact value free
  | _ => trivial

end Sound

theorem Thread.inquiry_soundIn {h : Heap} {t : Thread} (heap : h.Sound) (symbols : t.symbols.SoundIn h)
    (stack : ∀ s ∈ t.stack, s.refFree) : t.inquiry.SoundIn h := by
  simp only [inquiry]
  split
  next s rest running top => exact s.inquiry_soundIn heap symbols (stack s (by simp [top]))
  · trivial

end Lockstep
