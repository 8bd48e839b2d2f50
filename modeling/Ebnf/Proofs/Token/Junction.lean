import Ebnf.Proofs.Parser.Relocation
import Ebnf.Proofs.Token.Gist

namespace Ebnf

open Lexeme

namespace Lexeme

def placed (here : Location) : List Lexeme → List Token
  | [] => []
  | l :: ls =>
      let next := here.after l.spelling
      match l.kind? with
      | none => placed next ls
      | some k => ⟨k, ⟨here.offset, next.offset⟩, here, []⟩ :: placed next ls

variable {here : Location} {l : Lexeme} {ls ms : List Lexeme} {k : Kind}

theorem placed_trivia (h : l.kind? = none) : placed here (l :: ls) = placed (here.after l.spelling) ls := by
  simp [placed, h]

theorem placed_token (h : l.kind? = some k) : placed here (l :: ls) =
    ⟨k, ⟨here.offset, (here.after l.spelling).offset⟩, here, []⟩ :: placed (here.after l.spelling) ls := by
  simp [placed, h]

theorem placed_append : placed here (ls ++ ms) = placed here ls ++ placed (here.after (spell ls)) ms := by
  induction ls generalizing here with
  | nil => rfl
  | cons l ls ih =>
      rw [spell_cons, Location.after_append]
      cases h : l.kind? with
      | none => rw [List.cons_append, placed_trivia h, placed_trivia h, ih]
      | some k => rw [List.cons_append, placed_token h, placed_token h, ih, List.cons_append]

theorem placed_behind (front : Text) (h : 1 ≤ here.line) (ls : List Lexeme) :
    (placed here ls).map (Relocation.behind front).token = placed (here.behind front) ls := by
  induction ls generalizing here with
  | nil => rfl
  | cons l ls ih =>
      have hnext := Location.behind_after front h l.spelling
      have hrest := ih (Location.one_le_line_after h l.spelling)
      rw [hnext] at hrest
      cases hk : l.kind? with
      | none => rw [placed_trivia hk, placed_trivia hk, hrest]
      | some k =>
          rw [placed_token hk, placed_token hk, List.map_cons, hrest, ← hnext]
          rfl

end Lexeme

namespace Token

def endAt (here : Location) : Token := ⟨.eof, ⟨here.offset, here.offset⟩, here, []⟩

theorem map_stay_place (here : Location) (before : List Trivia) (ls : List Lexeme) :
    (place here before ls).map Relocation.stay.token =
      Lexeme.placed here ls ++ [endAt (here.after (spell ls))] := by
  induction ls generalizing here before with
  | nil => rfl
  | cons l ls ih =>
      rw [spell_cons, Location.after_append]
      cases l with
      | gap | comment => exact ih _ _
      | _ => exact congrArg (_ :: ·) (ih _ _)

end Token

namespace Lexeme

variable {ls : List Lexeme} {u : Text}

/-- Where two texts meet, at most a gap goes on from one to the other. So the
tokens of both stay what they are. -/
theorem exists_split_append (hc : Chained ls []) (hl : Legible ls u) :
    ∃ ms, split (spell ls ++ u) = (ms, (split u).2) ∧ spell ms = spell ls ++ spell (split u).1 ∧
      ∀ here, placed here ms = placed here (ls ++ (split u).1) := by
  rcases ls.eq_nil_or_concat with rfl | ⟨as, l, rfl⟩
  · exact ⟨(split u).1, rfl, rfl, fun _ => rfl⟩
  rw [List.concat_eq_append] at hc hl ⊢
  obtain ⟨has, hp, -⟩ := chained_append.1 hc
  obtain ⟨-, -, hk, -⟩ := legible_append.1 hl
  obtain ⟨c, s, hcs⟩ := List.exists_cons_of_ne_nil hp.spelling_ne_nil
  by_cases hs : l.Stops u
  · have hchain : Chained (as ++ [l]) u := chained_append.2 ⟨has.congr (by simp [hcs]), hp, hs, trivial⟩
    exact ⟨as ++ [l] ++ (split u).1, split_spell hchain, spell_append _ _, fun _ => rfl⟩
  · cases l with
    | comment body => exact absurd trivial hs
    | gap run =>
        have hv := head?_dropWhile (p := isGap) u
        have hrun : ∀ c ∈ u.takeWhile isGap, isGap c = true := mem_takeWhile
        have hu : u.takeWhile isGap ++ u.dropWhile isGap = u := List.takeWhile_append_dropWhile
        have hne : u.takeWhile isGap ≠ [] := by
          intro hn
          rw [hn, List.nil_append] at hu
          rw [hu] at hv
          exact hs hv
        generalize u.takeWhile isGap = run', u.dropWhile isGap = v at hv hrun hu hne
        subst hu
        have hrest : split (run' ++ v) = (.gap run' :: (split v).1, (split v).2) :=
          split_spelling (l := .gap run') ⟨hne, hrun⟩ hv
        have hchain : Chained (as ++ [.gap (run ++ run')]) v := by
          refine chained_append.2 ⟨has.congr ?_, ⟨?_, ?_⟩, hv, trivial⟩
          · obtain ⟨d, t, rfl⟩ := List.exists_cons_of_ne_nil hp.1
            rfl
          · simp [hp.1]
          · exact List.forall_mem_append.2 ⟨hp.2, hrun⟩
        refine ⟨as ++ [.gap (run ++ run')] ++ (split v).1, ?_, ?_, ?_⟩
        · have hsplit := split_spell hchain
          rw [hrest]
          simpa [spelling] using hsplit
        · simp [hrest, spelling]
        · intro here
          have hafter := (here.after (spell as)).after_append run run'
          rw [hrest, List.append_assoc, List.append_assoc, List.singleton_append, List.singleton_append,
            placed_append, placed_append, placed_trivia rfl, placed_trivia rfl, placed_trivia rfl]
          exact congrArg (fun next => _ ++ placed next _) hafter
    | _ => exact absurd (hk.resolve_left (by simp [kind?, role])) (by simpa using hs)

end Lexeme

end Ebnf
