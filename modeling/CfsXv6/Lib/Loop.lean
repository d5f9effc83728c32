import Mathlib.Data.List.Basic

/-! Loops that may fault, as `List.foldlM` in `Option`: what each pass keeps,
the whole loop keeps, and the loop does not fault. The invariant may depend on
the elements already passed. -/

namespace List

variable {α β : Type*} {f : β → α → Option β}

theorem foldlM_option_inv {P : List α → β → Prop} :
    ∀ {l : List α} (acc : List α) {b : β}, P acc b →
      (∀ a ∈ l, ∀ acc b, P acc b → ∃ b', f b a = some b' ∧ P (acc ++ [a]) b') →
      ∃ b', l.foldlM f b = some b' ∧ P (acc ++ l) b'
  | [], _, b, hb, _ => ⟨b, rfl, by simpa using hb⟩
  | a :: l, acc, b, hb, hstep => by
    obtain ⟨b1, hf, hb1⟩ := hstep a mem_cons_self acc b hb
    obtain ⟨b2, hrest, hb2⟩ := foldlM_option_inv (l := l) (acc ++ [a]) hb1
      fun a' ha' => hstep a' (mem_cons_of_mem a ha')
    refine ⟨b2, ?_, by simpa using hb2⟩
    simp [hf, hrest]

theorem foldlM_option_inv' {P : β → Prop} {l : List α} {b : β} (hb : P b)
    (hstep : ∀ a ∈ l, ∀ b, P b → ∃ b', f b a = some b' ∧ P b') :
    ∃ b', l.foldlM f b = some b' ∧ P b' := by
  obtain ⟨b', hrun, hb'⟩ := foldlM_option_inv (P := fun _ => P) [] hb
    fun a ha _ b hb => hstep a ha b hb
  exact ⟨b', hrun, hb'⟩

theorem foldlM_option_skip {P : β → Prop} :
    ∀ {l : List α} {b : β}, P b → (∀ a ∈ l, ∀ b, P b → f b a = some b) → l.foldlM f b = some b
  | [], _, _, _ => rfl
  | a :: l, b, hb, hskip => by
    rw [foldlM_cons, hskip a mem_cons_self b hb]
    exact foldlM_option_skip hb fun a' ha' => hskip a' (mem_cons_of_mem a ha')

theorem foldlM_option_single {P : β → Prop} {x : α}
    (hskip : ∀ a, a ≠ x → ∀ b, P b → f b a = some b) (hx : ∀ b b', P b → f b x = some b' → P b') :
    ∀ {l : List α}, l.Nodup → x ∈ l → ∀ {b : β}, P b → l.foldlM f b = f b x
  | [], _, hm, _, _ => absurd hm not_mem_nil
  | a :: l, hnd, hm, b, hb => by
    rw [foldlM_cons]
    by_cases hax : a = x
    · -- the acting pass comes first, and no later pass acts
      subst hax
      cases hf : f b a with
      | none => rfl
      | some b' =>
        exact foldlM_option_skip (hx b b' hb hf) fun a' ha' =>
          hskip a' fun e => (nodup_cons.1 hnd).1 (e ▸ ha')
    · rw [hskip a hax b hb]
      exact foldlM_option_single hskip hx (nodup_cons.1 hnd).2
        ((mem_cons.1 hm).resolve_left fun e => hax e.symm) hb

end List
