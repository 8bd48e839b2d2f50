import Ebnf.Proofs.Lexeme.Scan

namespace Ebnf.Lexeme

def spell (ls : List Lexeme) : Text := ls.flatMap spelling

@[simp] theorem spell_nil : spell [] = [] := rfl

@[simp] theorem spell_cons (l : Lexeme) (ls : List Lexeme) : spell (l :: ls) = l.spelling ++ spell ls := rfl

@[simp] theorem spell_append (ls ms : List Lexeme) : spell (ls ++ ms) = spell ls ++ spell ms :=
  List.flatMap_append

/-- Lexemes that are read back one by one from their spelling in front of `u`. -/
def Chained : List Lexeme → Text → Prop
  | [], _ => True
  | l :: ls, u => l.Proper ∧ l.Stops (spell ls ++ u) ∧ Chained ls u

theorem chained_append {ls ms : List Lexeme} {u : Text} :
    Chained (ls ++ ms) u ↔ Chained ls (spell ms ++ u) ∧ Chained ms u := by
  induction ls with
  | nil => simp [Chained]
  | cons l ls ih => simp [Chained, ih, and_assoc]

theorem Stops.congr {l : Lexeme} {u v : Text} (h : l.Stops u) (huv : u.head? = v.head?) : l.Stops v := by
  cases l with
  | gap | identifier | integer => exact fun c hc => h c (huv ▸ hc)
  | mark m =>
      cases m with
      | opening b => cases b with
          | grouped => exact fun hv => h (huv.trans hv)
          | _ => trivial
      | _ => trivial
  | _ => trivial

theorem Chained.congr {ls : List Lexeme} {u v : Text} (h : Chained ls u) (huv : u.head? = v.head?) :
    Chained ls v := by
  induction ls with
  | nil => trivial
  | cons l ls ih =>
      obtain ⟨hp, hs, ht⟩ := h
      refine ⟨hp, hs.congr ?_, ih ht⟩
      rw [List.head?_append, List.head?_append, huv]

theorem split_cons_ok {c : Char} {t : Text} {l : Lexeme} {rest : Text} (h : scan c t = .ok (l, rest)) :
    split (c :: t) = (l :: (split rest).1, (split rest).2) := by
  rw [split]
  split
  · next f hf => rw [h] at hf; cases hf
  · next l' rest' hl => rw [h] at hl; cases hl; rfl

theorem split_cons_error {c : Char} {t : Text} {f : Fault} (h : scan c t = .error f) :
    split (c :: t) = ([], some f) := by
  rw [split]
  split
  · next f' hf => rw [h] at hf; cases hf; rfl
  · next l' rest' hl => rw [h] at hl; cases hl

theorem split_spelling {l : Lexeme} {u : Text} (hp : l.Proper) (hs : l.Stops u) :
    split (l.spelling ++ u) = (l :: (split u).1, (split u).2) := by
  obtain ⟨c, s, he⟩ := List.exists_cons_of_ne_nil hp.spelling_ne_nil
  rw [he, List.cons_append]
  exact split_cons_ok (scan_of_spelling hp hs (by rw [he, List.cons_append]))

theorem split_spell {ls : List Lexeme} {u : Text} (h : Chained ls u) :
    split (spell ls ++ u) = (ls ++ (split u).1, (split u).2) := by
  induction ls with
  | nil => rfl
  | cons l ls ih =>
      obtain ⟨hp, hs, ht⟩ := h
      rw [spell_cons, List.append_assoc, split_spelling hp hs, ih ht]
      rfl

theorem chained_of_split {t : Text} {ls : List Lexeme} (h : split t = (ls, none)) :
    Chained ls [] ∧ spell ls = t := by
  induction t using split.induct generalizing ls with
  | case1 =>
      rw [split] at h
      cases h
      exact ⟨trivial, rfl⟩
  | case2 c t f hf =>
      rw [split_cons_error hf] at h
      cases h
  | case3 c t l rest hl _ ih =>
      rw [split_cons_ok hl] at h
      obtain ⟨rfl, hn⟩ := Prod.mk.inj h
      obtain ⟨hc, hs⟩ := ih (Prod.ext rfl hn)
      obtain ⟨hp, hst, he⟩ := scan_eq_ok.1 hl
      refine ⟨⟨hp, ?_, hc⟩, ?_⟩
      · rw [List.append_nil, hs]
        exact hst
      · rw [spell_cons, hs, he]

end Ebnf.Lexeme
