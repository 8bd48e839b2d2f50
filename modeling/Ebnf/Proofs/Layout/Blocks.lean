import Ebnf.Proofs.Layout.BlankLines
import Ebnf.Proofs.Layout.Segments
import Ebnf.Proofs.Token.Roundtrip

namespace Ebnf

open Lexeme Layout

namespace Text

/-- Between the bytes `a` and `b` there is a break, and behind it, from byte `n`
on, the whole line `w` with its own break. -/
def WholeLine (t : Text) (a b n : Nat) (w : Text) : Prop :=
  ∃ u v, t = u ++ '\n' :: (w ++ '\n' :: v) ∧ '\n' ∉ w ∧ n = u.byteLength + 1 ∧ a ≤ u.byteLength ∧
    n + w.byteLength < b

/-- What a reader takes for a blank line. -/
def IsBlankLine (w : Text) : Prop := ∀ c ∈ w, c = ' ' ∨ c = '\t' ∨ c = '\r'

/-- A line that is empty, or that a long break ends. -/
def IsBareLine (w : Text) : Prop := w = [] ∨ w = ['\r']

theorem IsBareLine.isBlankLine {w : Text} (h : w.IsBareLine) : w.IsBlankLine := by
  obtain rfl | rfl := h
  · simp [IsBlankLine]
  · simp [IsBlankLine]

theorem IsBlankLine.newline_notMem {w : Text} (h : w.IsBlankLine) : '\n' ∉ w := by
  intro hm
  rcases h _ hm with h | h | h <;> cases h

theorem hasBlankLine_iff {t : Text} :
    HasBlankLine t ↔ ∃ u w v : Text, t = u ++ '\n' :: (w ++ '\n' :: v) ∧ w.IsBareLine := by
  constructor
  · rintro (⟨u, v, rfl⟩ | ⟨u, v, rfl⟩)
    · exact ⟨u, [], v, by simp, .inl rfl⟩
    · exact ⟨u, ['\r'], v, by simp, .inr rfl⟩
  · rintro ⟨u, w, v, rfl, rfl | rfl⟩
    · exact .inl ⟨u, v, by simp⟩
    · exact .inr ⟨u, v, by simp⟩

theorem infix_of_within {t u v x y z : Text} (h : t ++ (u ++ v) = x ++ (y ++ z))
    (hl : t.byteLength ≤ x.byteLength) (hr : x.byteLength + y.byteLength ≤ t.byteLength + u.byteLength) :
    y <:+: u := by
  obtain ⟨m, rfl, hm⟩ := exists_append_of_byteLength_le h hl
  rw [byteLength_append] at hr
  have hfront : (m ++ y) ++ z = u ++ v := by rw [hm, List.append_assoc]
  obtain ⟨k, rfl, -⟩ := exists_append_of_byteLength_le hfront (by
    rw [byteLength_append]
    omega)
  exact ⟨m, k, rfl⟩

end Text

namespace Lexeme

variable {as bs as' bs' ls : List Lexeme} {l l' : Lexeme}

theorem eq_or_before (h : as ++ l :: bs = as' ++ l' :: bs') :
    (as = as' ∧ l = l') ∨ (∃ m, as' = as ++ l :: m) ∨ ∃ m, as = as' ++ l' :: m := by
  rcases List.append_eq_append_iff.1 h with ⟨m, rfl, hm⟩ | ⟨m, rfl, hm⟩
  · cases m with
    | nil => exact .inl ⟨by simp, (List.cons.inj hm).1⟩
    | cons k m =>
        obtain ⟨rfl, -⟩ := List.cons.inj hm
        exact .inr (.inl ⟨m, rfl⟩)
  · cases m with
    | nil => exact .inl ⟨by simp, (List.cons.inj hm).1.symm⟩
    | cons k m =>
        obtain ⟨rfl, -⟩ := List.cons.inj hm
        exact .inr (.inr ⟨m, rfl⟩)

theorem exists_mem_of_hasBlankLine {u : Text} (hc : Chained ls u) (ht : ∀ l ∈ ls, l.kind? = none)
    (h : Text.HasBlankLine (spell ls)) : ∃ l ∈ ls, Text.HasBlankLine l.spelling := by
  induction ls with
  | nil => cases h.mem
  | cons l ls ih =>
      obtain ⟨hp, hs, hc⟩ := hc
      obtain ⟨hl, hls⟩ := List.forall_mem_cons.1 ht
      rw [spell_cons, Text.hasBlankLine_append] at h
      · rcases h with h | h
        · exact ⟨l, List.mem_cons_self, h⟩
        · obtain ⟨m, hm, h⟩ := ih hc hls h
          exact ⟨m, List.mem_cons_of_mem l hm, h⟩
      · cases l with
        | gap run =>
            right
            intro c hhead
            have hgap : isGap c = false := hs c (by
              rw [Option.mem_def, List.head?_append, Option.mem_def.1 hhead]
              rfl)
            constructor <;> rintro rfl <;> cases hgap
        | comment body =>
            left
            intro c hlast
            obtain rfl : c = ')' := hp.ends hlast
            decide
        | _ => cases hl

theorem hasBlankLine_comment {body : Text} (h : Text.HasBlankLine (Lexeme.comment body).spelling) :
    Text.HasBlankLine body := by
  have hopen : ¬ Text.HasBlankLine ['(', '*'] := by decide
  have hclose : ¬ Text.HasBlankLine ['*', ')'] := by decide
  have hspelling : (Lexeme.comment body).spelling = ['(', '*'] ++ (body ++ ['*', ')']) := rfl
  rw [hspelling, Text.hasBlankLine_append (.inl (by simp)), Text.hasBlankLine_append (.inr (by simp))] at h
  exact (h.resolve_left hopen).resolve_right hclose

theorem item_mem_items (n : Nat) (as : List Lexeme) (l : Lexeme) (bs : List Lexeme) :
    l.item ⟨n + (spell as).byteLength, n + (spell as).byteLength + l.spelling.byteLength⟩ ∈
      items n (as ++ l :: bs) := by
  induction as generalizing n with
  | nil => exact List.mem_cons_self
  | cons a as ih =>
      rw [spell_cons, Text.byteLength_append, ← Nat.add_assoc]
      exact List.mem_cons_of_mem _ (ih _)

end Lexeme

theorem Token.mem_comments_place {ls : List Lexeme} {c : Comment} :
    (∃ t ∈ Token.place .start [] ls, c ∈ t.comments) ↔ ∃ as bs, ls = as ++ .comment c.text :: bs ∧
      c.span = ⟨(spell as).byteLength, (spell as).byteLength + (Lexeme.comment c.text).spelling.byteLength⟩ := by
  have hcomment (t : Token) : c ∈ t.comments ↔ Item.trivia (.comment c.text c.span) ∈ t.items := by
    simp only [comments, items, List.mem_filterMap, List.mem_append, List.mem_map, List.mem_singleton]
    constructor
    · rintro ⟨x, hx, hc⟩
      cases x with
      | gap => cases hc
      | comment body span =>
          cases hc
          exact .inl ⟨_, hx, rfl⟩
    · rintro (⟨x, hx, h⟩ | h)
      · cases h
        exact ⟨_, hx, rfl⟩
      · cases h
  have hitems : (Token.place .start [] ls).flatMap Token.items = Lexeme.items 0 ls :=
    Token.flatMap_items_place .start [] ls
  have hall : (∃ t ∈ Token.place .start [] ls, c ∈ t.comments) ↔
      Item.trivia (.comment c.text c.span) ∈ Lexeme.items 0 ls := by
    rw [← hitems, List.mem_flatMap]
    exact exists_congr fun t => and_congr_right fun _ => hcomment t
  rw [hall]
  constructor
  · intro h
    rcases mem_items h with he | ⟨as, l, bs, rfl, he⟩
    · cases he
    · cases l with
      | comment body =>
          obtain ⟨ht, hs⟩ := Trivia.comment.inj (Item.trivia.inj he)
          rw [Nat.zero_add] at hs
          exact ⟨as, bs, by rw [ht], by rw [hs, ht]⟩
      | gap => cases Item.trivia.inj he
      | _ => cases he
  · rintro ⟨as, bs, rfl, hs⟩
    have h := item_mem_items 0 as (.comment c.text) bs
    rw [Nat.zero_add, ← hs] at h
    exact h

namespace Layout

variable {source : Text} {x y r s : Rule Span} {rs ss : List (Rule Span)}

/-- A block ends between these rules. -/
def Cuts (source : Text) (rs ss : List (Rule Span)) : Prop :=
  ∃ bs cs, blocks source (rs ++ ss) = bs ++ cs ∧ bs.flatten = rs ∧ cs.flatten = ss

theorem cuts_cons_cons : Cuts source (x :: y :: rs) ss ↔ Cuts source (y :: rs) ss := by
  obtain ⟨b, bs₀, hb⟩ := exists_blocks source y (rs ++ ss)
  have hx := blocks_cons_cons hb x
  rw [Cuts, Cuts, List.cons_append, List.cons_append, hx, hb]
  by_cases hp : parted source x y = true
  · -- the first rule is a block of its own
    rw [if_pos hp]
    constructor
    · rintro ⟨bs, cs, h, hf, hg⟩
      cases bs with
      | nil => cases hf
      | cons c bs =>
          obtain ⟨rfl, htail⟩ := List.cons.inj h
          exact ⟨bs, cs, htail, (List.cons.inj hf).2, hg⟩
    · rintro ⟨bs, cs, h, hf, hg⟩
      exact ⟨[x] :: bs, cs, congrArg ([x] :: ·) h, congrArg (x :: ·) hf, hg⟩
  · -- the first rule stands in front of the others of its block
    rw [if_neg hp]
    constructor
    · rintro ⟨bs, cs, h, hf, hg⟩
      cases bs with
      | nil => cases hf
      | cons c bs =>
          obtain ⟨rfl, htail⟩ := List.cons.inj h
          exact ⟨(y :: b) :: bs, cs, congrArg ((y :: b) :: ·) htail, (List.cons.inj hf).2, hg⟩
    · rintro ⟨bs, cs, h, hf, hg⟩
      cases bs with
      | nil => cases hf
      | cons c bs =>
          obtain ⟨rfl, htail⟩ := List.cons.inj h
          exact ⟨(x :: y :: b) :: bs, cs, congrArg ((x :: y :: b) :: ·) htail, congrArg (x :: ·) hf, hg⟩

theorem cuts_iff : Cuts source (rs ++ [r]) (s :: ss) ↔ parted source r s = true := by
  induction rs with
  | nil =>
      obtain ⟨b, bs, hb⟩ := exists_blocks source s ss
      have hr := blocks_cons_cons hb r
      constructor
      · rintro ⟨bs', cs, h, hf, -⟩
        by_contra hp
        have hall : (r :: s :: b) :: bs = bs' ++ cs := by
          rw [← h]
          exact (hr.trans (if_neg hp)).symm
        cases bs' with
        | nil => cases hf
        | cons c bs' =>
            obtain ⟨rfl, -⟩ := List.cons.inj hall
            simp at hf
      · intro hp
        refine ⟨[[r]], blocks source (s :: ss), ?_, rfl, flatten_blocks source (s :: ss)⟩
        rw [hb]
        exact hr.trans (if_pos hp)
  | cons x rs ih =>
      have hne : rs ++ [r] ≠ [] := List.append_ne_nil_of_right_ne_nil rs (List.cons_ne_nil r [])
      obtain ⟨y, ys, hy⟩ := List.exists_cons_of_ne_nil hne
      rw [← ih, List.cons_append, hy, cuts_cons_cons]

end Layout

variable {source : Text} {d : Document} {rs ss : List (Rule Span)} {r s : Rule Span}

theorem Passage.Laid.exists_lead {n : Nat} {rules : List (Rule Span)} {ps : List Passage}
    (h : Passage.Laid n rules ps) (hr : rules = rs ++ r :: s :: ss) (trail : List Lexeme) :
    ∃ as lead bs, Passage.allLexemes ps trail = as ++ (lead ++ bs) ∧ (∀ l ∈ lead, l.IsTrivia) ∧
      r.place.stop = n + (spell as).byteLength ∧
      s.place.start = n + (spell as).byteLength + (spell lead).byteLength := by
  induction h generalizing rs with
  | nil => simp at hr
  | @cons n r' rules q ps hk hp hl ih =>
      cases rs with
      | nil =>
          obtain ⟨rfl, rfl⟩ := List.cons.inj hr
          cases hl with
          | @cons _ _ _ q' ps _ hp' _ =>
              refine ⟨q.lexemes, q'.lead, q'.body ++ Passage.allLexemes ps trail, ?_, q'.lead_trivia, ?_, ?_⟩
              · simp [Passage.allLexemes_cons, Passage.lexemes]
              · rw [hp]
                rfl
              · rw [hp']
                rfl
      | cons x rs =>
          obtain ⟨-, hr⟩ := List.cons.inj hr
          obtain ⟨as, lead, bs, hs, ht, hstop, hstart⟩ := ih hr
          refine ⟨q.lexemes ++ as, lead, bs, ?_, ht, ?_, ?_⟩
          · rw [Passage.allLexemes_cons, hs, List.append_assoc]
          · rw [hstop, spell_append, Text.byteLength_append, ← Nat.add_assoc]
            rfl
          · rw [hstart, spell_append, Text.byteLength_append, ← Nat.add_assoc]
            rfl

namespace Document

theorem exists_lexemes (h : ofSource source = .ok d) : ∃ ps trail,
    Chained (Passage.allLexemes ps trail) [] ∧ Printed source d ps trail ∧
      d.tokens = Token.place .start [] (Passage.allLexemes ps trail) := by
  obtain ⟨ps, trail, hc, hp⟩ := exists_chained_of_ofSource h
  have ht : tokenize source = .ok (Token.place .start [] (Passage.allLexemes ps trail)) :=
    tokenize_eq_ok.2 ⟨_, hc, hp.source_eq.symm, rfl⟩
  exact ⟨ps, trail, hc, hp, Except.ok.inj ((tokenize_tokens h).symm.trans ht)⟩

/-- The line `w` of the source stands between two bytes, outside all comments. -/
def OpenLine (d : Document) (source : Text) (a b : Nat) (w : Text) : Prop :=
  ∃ n, source.WholeLine a b n w ∧
    ∀ t ∈ d.tokens, ∀ c ∈ t.comments, c.span.stop ≤ n ∨ n + w.byteLength < c.span.start

def CommentedLine (d : Document) (a b : Nat) : Prop :=
  ∃ t ∈ d.tokens, ∃ c ∈ t.comments, a ≤ c.span.start ∧ c.span.stop ≤ b ∧ Text.HasBlankLine c.text

theorem OpenLine.hasBlankLine {front mid back w : Text} {a b : Nat} (h : d.OpenLine source a b w)
    (hw : w.IsBareLine) (hs : source = front ++ (mid ++ back)) (ha : a = front.byteLength)
    (hb : b = front.byteLength + mid.byteLength) : Text.HasBlankLine mid := by
  obtain ⟨n, ⟨u, v, rfl, -, rfl, hl, hr⟩, -⟩ := h
  have hlines : front ++ (mid ++ back) = u ++ (('\n' :: w ++ ['\n']) ++ v) := by rw [← hs]; simp
  have hinside : '\n' :: w ++ ['\n'] <:+: mid := by
    have hsize : Char.utf8Size '\n' = 1 := rfl
    refine Text.infix_of_within hlines (ha ▸ hl) ?_
    simp only [Text.byteLength_append, Text.byteLength_cons, Text.byteLength_nil, hsize]
    omega
  exact (Text.hasBlankLine_iff.2 ⟨[], w, [], by simp, hw⟩ : Text.HasBlankLine ('\n' :: w ++ ['\n'])).mono hinside

theorem CommentedLine.hasBlankLine {as lead bs : List Lexeme} {a b : Nat} (h : d.CommentedLine a b)
    (ht : d.tokens = Token.place .start [] (as ++ (lead ++ bs))) (ha : a = (spell as).byteLength)
    (hb : b = (spell as).byteLength + (spell lead).byteLength) : Text.HasBlankLine (spell lead) := by
  obtain ⟨t, hmem, c, hc, hl, hr, hblank⟩ := h
  rw [ht] at hmem
  obtain ⟨as', bs', hs, hspan⟩ := Token.mem_comments_place.1 ⟨t, hmem, hc⟩
  have hspell : spell as ++ (spell lead ++ spell bs) =
      spell as' ++ ((Lexeme.comment c.text).spelling ++ spell bs') := by
    rw [← spell_append, ← spell_append, hs, spell_append, spell_cons]
  rw [hspan] at hl hr
  have hinside : (Lexeme.comment c.text).spelling <:+: spell lead :=
    Text.infix_of_within hspell (ha ▸ hl) (hb ▸ hr)
  exact hblank.mono (List.IsInfix.trans ⟨['(', '*'], ['*', ')'], rfl⟩ hinside)

theorem exists_openLine {as bs : List Lexeme} {run : Text} {a b : Nat} (hs : source = spell (as ++ .gap run :: bs))
    (ht : d.tokens = Token.place .start [] (as ++ .gap run :: bs)) (ha : a ≤ (spell as).byteLength)
    (hb : (spell as).byteLength + run.byteLength ≤ b) (h : Text.HasBlankLine run) :
    ∃ w, d.OpenLine source a b w ∧ w.IsBareLine := by
  obtain ⟨u, w, v, rfl, hw⟩ := Text.hasBlankLine_iff.1 h
  have hsize : Char.utf8Size '\n' = 1 := rfl
  simp only [Text.byteLength_append, Text.byteLength_cons, hsize] at hb
  have hline : source.WholeLine a b ((spell as ++ u).byteLength + 1) w := by
    refine ⟨spell as ++ u, v ++ spell bs, ?_, hw.isBlankLine.newline_notMem, rfl, ?_, ?_⟩
    · rw [hs]
      simp [spelling]
    · rw [Text.byteLength_append]
      omega
    · rw [Text.byteLength_append]
      omega
  refine ⟨w, ⟨_, hline, fun t hmem c hcomment => ?_⟩, hw⟩
  rw [ht] at hmem
  obtain ⟨as', bs', hcut, hspan⟩ := Token.mem_comments_place.1 ⟨t, hmem, hcomment⟩
  rw [hspan]
  rcases eq_or_before hcut with ⟨-, hsame⟩ | ⟨m, rfl⟩ | ⟨m, rfl⟩
  · cases hsame
  · right
    simp only [spell_append, spell_cons, spelling, Text.byteLength_append, Text.byteLength_cons, hsize]
    omega
  · left
    simp only [spell_append, spell_cons, Text.byteLength_append]
    omega

theorem commentedLine_of_comment {as bs : List Lexeme} {body : Text} {a b : Nat}
    (ht : d.tokens = Token.place .start [] (as ++ .comment body :: bs)) (ha : a ≤ (spell as).byteLength)
    (hb : (spell as).byteLength + (Lexeme.comment body).spelling.byteLength ≤ b) (h : Text.HasBlankLine body) :
    d.CommentedLine a b := by
  obtain ⟨t, hmem, hcomment⟩ : ∃ t ∈ Token.place .start [] (as ++ .comment body :: bs), Comment.mk body
      ⟨(spell as).byteLength, (spell as).byteLength + (Lexeme.comment body).spelling.byteLength⟩ ∈ t.comments :=
    Token.mem_comments_place.2 ⟨as, bs, rfl, rfl⟩
  rw [← ht] at hmem
  exact ⟨t, hmem, _, hcomment, ha, hb, h⟩

/-- A blank line between two rules is a line outside all comments, or it belongs
to a comment. -/
theorem exists_of_hasBlankLine {as lead bs : List Lexeme} {a b : Nat} (hc : Chained (as ++ (lead ++ bs)) [])
    (hs : source = spell (as ++ (lead ++ bs))) (ht : d.tokens = Token.place .start [] (as ++ (lead ++ bs)))
    (hl : ∀ l ∈ lead, l.IsTrivia) (ha : a = (spell as).byteLength)
    (hb : b = (spell as).byteLength + (spell lead).byteLength) (h : Text.HasBlankLine (spell lead)) :
    (∃ w, d.OpenLine source a b w ∧ w.IsBareLine) ∨ d.CommentedLine a b := by
  have hlead := (chained_append.1 (chained_append.1 hc).2).1
  obtain ⟨l, hmem, hblank⟩ := exists_mem_of_hasBlankLine hlead (fun l hm => (hl l hm).2) h
  obtain ⟨ls, ms, rfl⟩ := List.append_of_mem hmem
  have hsplit : as ++ (ls ++ l :: ms ++ bs) = (as ++ ls) ++ l :: (ms ++ bs) := by simp
  rw [hsplit] at hs ht
  have hstart : a ≤ (spell (as ++ ls)).byteLength := by
    rw [ha, spell_append, Text.byteLength_append]
    exact Nat.le_add_right _ _
  have hstop : (spell (as ++ ls)).byteLength + l.spelling.byteLength ≤ b := by
    simp only [hb, spell_append, spell_cons, Text.byteLength_append]
    omega
  have htrivia := (hl l hmem).2
  cases l with
  | gap run => exact .inl (exists_openLine hs ht hstart hstop hblank)
  | comment body => exact .inr (commentedLine_of_comment ht hstart hstop (hasBlankLine_comment hblank))
  | _ => cases htrivia

theorem parted_iff (h : ofSource source = .ok d) (hr : d.grammar.rules = rs ++ r :: s :: ss) :
    parted source r s = true ↔ (∃ w, d.OpenLine source r.place.stop s.place.start w ∧ w.IsBareLine) ∨
      d.CommentedLine r.place.stop s.place.start := by
  obtain ⟨ps, trail, hc, hp, ht⟩ := exists_lexemes h
  obtain ⟨as, lead, bs, hs, hl, hstop, hstart⟩ := hp.laid.exists_lead hr trail
  rw [Nat.zero_add] at hstop hstart
  have hsource := hp.source_eq
  rw [hs] at hc ht hsource
  have hparts : source = spell as ++ (spell lead ++ spell bs) := by rw [hsource, spell_append, spell_append]
  have hbetween : Span.slice ⟨r.place.stop, s.place.start⟩ source = spell lead := by
    rw [hstop, hstart, hparts]
    exact Span.slice_append _ _ _
  rw [parted_of_slice hbetween, decide_eq_true_iff]
  constructor
  · exact exists_of_hasBlankLine hc hsource ht hl hstop hstart
  · rintro (⟨w, hw, hbare⟩ | hcomment)
    · exact hw.hasBlankLine hbare hparts hstop hstart
    · exact hcomment.hasBlankLine ht hstop hstart

end Document

namespace Layout

/-- Blocks end where a line between two rules is empty, be it outside of all
comments or inside of one. A reader sees the same blocks if no comment between
two rules has such a line, and each blank line outside is one. -/
theorem blocks_cut_iff (h : Document.ofSource source = .ok d) :
    (∀ b ∈ blocks source d.grammar.rules, b ≠ []) ∧
    (blocks source d.grammar.rules).flatten = d.grammar.rules ∧
    ∀ rs r s ss, d.grammar.rules = rs ++ r :: s :: ss →
      let a := r.place.stop
      let b := s.place.start
      (Cuts source (rs ++ [r]) (s :: ss) ↔
        (∃ w, d.OpenLine source a b w ∧ w.IsBareLine) ∨ d.CommentedLine a b) ∧
      ((∀ w, d.OpenLine source a b w → w.IsBlankLine → w.IsBareLine) → ¬ d.CommentedLine a b →
        (Cuts source (rs ++ [r]) (s :: ss) ↔ ∃ w, d.OpenLine source a b w ∧ w.IsBlankLine)) := by
  refine ⟨fun b => ne_nil_of_mem_blocks, flatten_blocks _ _, fun rs r s ss hr => ?_⟩
  intro a b
  have hcuts : Cuts source (rs ++ [r]) (s :: ss) ↔
      (∃ w, d.OpenLine source a b w ∧ w.IsBareLine) ∨ d.CommentedLine a b :=
    cuts_iff.trans (Document.parted_iff h hr)
  refine ⟨hcuts, fun hbare hcomment => ?_⟩
  rw [hcuts, or_iff_left hcomment]
  constructor
  · rintro ⟨w, hw, hb⟩
    exact ⟨w, hw, hb.isBlankLine⟩
  · rintro ⟨w, hw, hb⟩
    exact ⟨w, hw, hbare w hw hb⟩

theorem blocks_cut_of_empty_lines :
    let source : Text := "a=b;\r\n\r\nc=d;(*x\n\ny*)e=f;\ng=h;".toList
    ∃ d, Document.ofSource source = .ok d ∧
      (blocks source d.grammar.rules).map (·.map (·.name)) = [[['a']], [['c']], [['e'], ['g']]] ∧
      (blocks source d.grammar.rules).flatten = d.grammar.rules ∧
      ∀ rs r s ss, d.grammar.rules = rs ++ r :: s :: ss → (Cuts source (rs ++ [r]) (s :: ss) ↔
        (∃ w, d.OpenLine source r.place.stop s.place.start w ∧ w.IsBareLine) ∨
          d.CommentedLine r.place.stop s.place.start) := by
  intro source
  obtain ⟨d, h, hd⟩ : ∃ d, Document.ofSource source = .ok d ∧
      (blocks source d.grammar.rules).map (·.map (·.name)) = [[['a']], [['c']], [['e'], ['g']]] :=
    exists_of_map_eq_ok (by decide +kernel)
  obtain ⟨-, hflatten, hcuts⟩ := blocks_cut_iff h
  exact ⟨d, h, hd, hflatten, fun rs r s ss hr => (hcuts rs r s ss hr).1⟩

/-- A line with a space on it is blank for a reader, but ends no block. -/
theorem blocks_not_cut_of_spaced_line :
    let source : Text := "a = b ;\n \nlong = d ;\n".toList
    ∃ d r s, Document.ofSource source = .ok d ∧ d.grammar.rules = [r, s] ∧
      (∃ w, d.OpenLine source r.place.stop s.place.start w ∧ w.IsBlankLine) ∧ ¬ Cuts source [r] [s] := by
  intro source
  obtain ⟨d, h, hd⟩ : ∃ d, Document.ofSource source = .ok d ∧
      (d.grammar.rules.map (·.place), d.tokens.flatMap Token.comments) = ([⟨0, 7⟩, ⟨10, 20⟩], []) :=
    exists_of_map_eq_ok (by decide +kernel)
  obtain ⟨hplaces, hcomments⟩ := Prod.mk.inj hd
  obtain ⟨r, rules, hrules, hr, hrest⟩ := List.map_eq_cons_iff.1 hplaces
  obtain ⟨s, rfl, hs⟩ := List.map_eq_singleton_iff.1 hrest
  refine ⟨d, r, s, h, hrules, ⟨[' '], ?_, by simp [Text.IsBlankLine]⟩, ?_⟩
  · refine ⟨8, ⟨"a = b ;".toList, "long = d ;\n".toList, rfl, by decide, rfl, ?_, ?_⟩, ?_⟩
    · rw [hr]
      decide
    · rw [hs]
      decide
    · intro t ht c hc
      have hmem : c ∈ d.tokens.flatMap Token.comments := List.mem_flatMap.2 ⟨t, ht, hc⟩
      rw [hcomments] at hmem
      cases hmem
  · have hcuts : Cuts source ([] ++ [r]) [s] ↔ parted source r s = true := cuts_iff
    rw [← List.nil_append [r], hcuts, parted, hr, hs]
    decide +kernel

end Layout

end Ebnf
