import Ebnf.Proofs.Layout.Reprint
import Ebnf.Proofs.Layout.Segments

namespace Ebnf

open Layout

/-- A text that takes up whole lines: what follows it begins a line if it does. -/
def Text.FillsLines (t : Text) : Prop := ∀ l : Location, l.column = 1 → (l.after t).column = 1

namespace Text.FillsLines

variable {t u : Text}

theorem nil : FillsLines [] := fun _ h => h

theorem append (ht : t.FillsLines) (hu : u.FillsLines) : (t ++ u).FillsLines := by
  intro l hl
  rw [Location.after_append]
  exact hu _ (ht l hl)

theorem newline (t : Text) (nl : Newline) : (t ++ nl.text).FillsLines := by
  intro l _
  rw [Location.after_append]
  cases nl <;> rfl

theorem flatMap {α : Type} {f : α → Text} {xs : List α} (h : ∀ x ∈ xs, (f x).FillsLines) :
    FillsLines (xs.flatMap f) := by
  induction xs with
  | nil => exact nil
  | cons x xs ih =>
      obtain ⟨hx, hxs⟩ := List.forall_mem_cons.1 h
      exact hx.append (ih hxs)

end Text.FillsLines

namespace Kind

abbrev bar : Kind := .mark (.operator (.joining .alternation))

def written (style : QuoteStyle) : Kind → Text
  | .identifier name => name
  | .terminal text quote => (style.choose text quote).char :: text ++ [(style.choose text quote).char]
  | .integer n => Decimal.digits n
  | .special text => '?' :: text ++ ['?']
  | .mark m => [m.char]
  | .eof => []

def touches : Kind → Kind → Bool
  | _, .mark (.operator (.joining .concatenation)) => true
  | .mark (.opening _), .mark (.closing _) => true
  | _, _ => false

def gap (k l : Kind) : Text := if k.touches l then [] else [' ']

/-- How many brackets are open behind a token. -/
def depthBehind (depth : Nat) : Kind → Nat
  | .mark (.opening _) => depth + 1
  | .mark (.closing _) => depth - 1
  | _ => depth

def depthAfter (depth : Nat) (ks : List Kind) : Nat := ks.foldl depthBehind depth

/-- There is a bar outside all brackets. -/
def Barred (depth : Nat) (ks : List Kind) : Prop :=
  ∃ front back, ks = front ++ bar :: back ∧ depthAfter depth front = 0

/-- Tokens one behind the other, the first one behind `k` and inside of `depth`
brackets. A bar outside all brackets has `glue` in front of it. -/
def lineText (style : QuoteStyle) (glue : Text) : Nat → Kind → List Kind → Text
  | _, _, [] => []
  | depth, k, l :: ls =>
      (if depth = 0 ∧ l = bar then glue else k.gap l) ++ l.written style ++
        lineText style glue (l.depthBehind depth) l ls

variable {style : QuoteStyle} {glue : Text} {depth : Nat} {k l : Kind} {ks ls : List Kind}

theorem gap_bar (k : Kind) : k.gap bar = [' '] := by
  cases k with
  | mark m => cases m <;> rfl
  | _ => rfl

theorem gap_of_starts (h : l.startsExpression = true) (k : Kind) : k.gap l = [' '] := by
  cases l with
  | mark m =>
      cases m with
      | opening b => cases k with
          | mark n => cases n <;> rfl
          | _ => rfl
      | _ => cases h
  | eof => cases h
  | _ => cases k with
      | mark n => cases n <;> rfl
      | _ => rfl

theorem depthAfter_append (depth : Nat) (ks ls : List Kind) :
    depthAfter depth (ks ++ ls) = depthAfter (depthAfter depth ks) ls :=
  List.foldl_append

theorem not_barred_nil : ¬ Barred depth [] := by
  rintro ⟨front, back, h, -⟩
  simp at h

theorem barred_cons : Barred depth (l :: ls) ↔ depth = 0 ∧ l = bar ∨ Barred (l.depthBehind depth) ls := by
  constructor
  · rintro ⟨front, back, h, hd⟩
    cases front with
    | nil => exact .inl ⟨hd, (List.cons.inj h).1⟩
    | cons k front =>
        obtain ⟨rfl, rfl⟩ := List.cons.inj h
        exact .inr ⟨front, back, rfl, hd⟩
  · rintro (⟨rfl, rfl⟩ | ⟨front, back, rfl, hd⟩)
    · exact ⟨[], ls, rfl, rfl⟩
    · exact ⟨l :: front, back, rfl, hd⟩

instance decidableBarred : (depth : Nat) → (ks : List Kind) → Decidable (Barred depth ks)
  | _, [] => isFalse not_barred_nil
  | depth, l :: ls =>
      have := decidableBarred (l.depthBehind depth) ls
      decidable_of_iff (depth = 0 ∧ l = bar ∨ Barred (l.depthBehind depth) ls) barred_cons.symm

theorem barred_append : Barred depth (ks ++ ls) ↔ Barred depth ks ∨ Barred (depthAfter depth ks) ls := by
  induction ks generalizing depth with
  | nil => simp [not_barred_nil, depthAfter]
  | cons k ks ih => rw [List.cons_append, barred_cons, barred_cons, ih, or_assoc]; rfl

theorem lineText_append (style : QuoteStyle) (glue : Text) (depth : Nat) (k : Kind) (ks ls : List Kind) :
    lineText style glue depth k (ks ++ ls) = lineText style glue depth k ks ++
      lineText style glue (depthAfter depth ks) (ks.getLastD k) ls := by
  induction ks generalizing depth k with
  | nil => rfl
  | cons l ks ih =>
      have hd : depthAfter depth (l :: ks) = depthAfter (l.depthBehind depth) ks := rfl
      rw [List.cons_append, lineText, lineText, ih, hd, List.getLastD_cons]
      simp only [List.append_assoc]

/-- Without such a bar the glue is not used, and with a space for glue the
depth does not matter. -/
theorem lineText_of_not_barred (h : ¬ Barred depth ks) (depth' : Nat) (k : Kind) :
    lineText style glue depth k ks = lineText style [' '] depth' k ks := by
  induction ks generalizing depth depth' k with
  | nil => rfl
  | cons l ks ih =>
      rw [barred_cons, not_or] at h
      rw [lineText, lineText, if_neg h.1, ih h.2 (l.depthBehind depth')]
      by_cases hl : depth' = 0 ∧ l = bar
      · rw [if_pos hl, hl.2, gap_bar]
      · rw [if_neg hl]

end Kind

open Kind

namespace Expr

variable {α : Type} {style : QuoteStyle} {glue : Text} {depth : Nat} {k : Kind} {e : Expr α}

theorem depthAfter_yield (depth : Nat) (e : Expr α) : depthAfter depth e.yield = depth := by
  induction e generalizing depth with
  | atom a => cases a <;> rfl
  | binary c l r _ ihl ihr => rw [yield, depthAfter_append, ihl]; exact ihr depth
  | without l _ ih => rw [yield, depthAfter_append, ih]; rfl
  | counted n _ e _ ih => exact ih depth
  | group b e _ ih =>
      have hopen : depthAfter depth (.mark (.opening b) :: e.yield) = depth + 1 := ih (depth + 1)
      rw [yield, depthAfter_append, hopen]
      rfl
  | empty => rfl

theorem gap_closing (e : Expr α) (b : Bracket) (k : Kind) :
    (e.yield.getLastD k).gap (.mark (.closing b)) = [' '] := by
  induction e generalizing k with
  | atom a => cases a <;> rfl
  | binary c l r _ _ ihr => simpa [yield, List.getLast?_cons] using ihr (.mark (.operator (.joining c)))
  | without => simp [yield]; rfl
  | counted n _ e _ ih => simpa [yield, List.getLast?_cons] using ih (.mark (.operator .counting))
  | group => simp [yield, List.getLast?_cons]; rfl
  | empty => rfl

theorem not_barred_yield (h : 0 < depth ∨ e.WellBound ∧ 1 < e.strength) : ¬ Barred depth e.yield := by
  induction e generalizing depth with
  | atom a => cases a <;> simp [yield, Atom.kind, barred_cons, not_barred_nil]
  | binary c l r _ ihl ihr =>
      have hc : 0 < depth ∨ 1 < c.strength := h.imp_right And.right
      have hl : ¬ Barred depth l.yield :=
        ihl (h.imp_right fun hw => ⟨hw.1.2.2.1, Nat.lt_of_lt_of_le hw.2 hw.1.1⟩)
      have hr : ¬ Barred depth r.yield :=
        ihr (h.imp_right fun hw => ⟨hw.1.2.2.2, Nat.lt_trans hw.2 hw.1.2.1⟩)
      rw [yield, barred_append, depthAfter_yield, barred_cons]
      rintro (hb | ⟨rfl, hb⟩ | hb)
      · exact hl hb
      · cases hb
        simp [Connective.strength] at hc
      · exact hr hb
  | without l _ ih =>
      have hl : ¬ Barred depth l.yield :=
        ih (h.imp_right fun hw => ⟨hw.1.2, Nat.lt_of_lt_of_le (by decide) hw.1.1⟩)
      simp [yield, barred_append, barred_cons, hl, not_barred_nil]
  | counted n _ e _ ih =>
      have he : ¬ Barred depth e.yield := ih (h.imp_right fun hw => ⟨hw.1.2, by rw [hw.1.1]; decide⟩)
      simpa [yield, barred_cons, depthBehind] using he
  | group b e _ ih =>
      have he : ¬ Barred (depth + 1) e.yield := ih (.inl (Nat.succ_pos depth))
      simp [yield, barred_cons, barred_append, depthBehind, he, not_barred_nil]
  | empty => simp [yield, barred_cons, not_barred_nil]

end Expr

namespace Layout

def Piece.text : Piece → Text
  | .space => [' ']
  | .word w => w

def plain (ps : List Piece) : Text := ps.flatMap Piece.text

@[simp] theorem plain_nil : plain [] = [] := rfl

@[simp] theorem plain_space (ps : List Piece) : plain (.space :: ps) = ' ' :: plain ps := rfl

@[simp] theorem plain_word (w : Text) (ps : List Piece) : plain (.word w :: ps) = w ++ plain ps := rfl

@[simp] theorem plain_append (ps qs : List Piece) : plain (ps ++ qs) = plain ps ++ plain qs := List.flatMap_append

variable {α : Type} {style : QuoteStyle} {glue : Text}

theorem lineText_space_cons (style : QuoteStyle) (depth : Nat) (k l : Kind) (ls : List Kind) :
    lineText style [' '] depth k (l :: ls) =
      k.gap l ++ l.written style ++ lineText style [' '] (l.depthBehind depth) l ls := by
  rw [lineText]
  split
  · next h => rw [h.2, gap_bar]
  · rfl

theorem lineText_bar (style : QuoteStyle) (glue : Text) (k : Kind) (ls : List Kind) :
    lineText style glue 0 k (bar :: ls) = glue ++ '|' :: lineText style glue 0 bar ls := by
  rw [lineText, if_pos ⟨rfl, rfl⟩, List.append_assoc]
  rfl

theorem lineText_operator (style : QuoteStyle) (depth : Nat) (k : Kind) (c : Connective) (ls : List Kind) :
    lineText style [' '] depth k (.mark (.operator (.joining c)) :: ls) =
      plain (gapBefore c) ++ (Operator.joining c).symbol ::
        lineText style [' '] depth (.mark (.operator (.joining c))) ls := by
  have hg : k.gap (.mark (.operator (.joining c))) = plain (gapBefore c) := by
    cases k with
    | mark m => cases m <;> cases c <;> rfl
    | _ => cases c <;> rfl
  rw [lineText_space_cons, hg, List.append_assoc]
  rfl

theorem lineText_yield (style : QuoteStyle) (depth : Nat) (k : Kind) (e : Expr α) :
    lineText style [' '] depth k e.yield = ' ' :: plain (pieces style e) := by
  induction e generalizing depth k with
  | atom a =>
      have hg : k.gap a.kind = [' '] := gap_of_starts (by cases a <;> rfl) k
      have hw : a.kind.written style = atomText style a := by cases a <;> rfl
      rw [Expr.yield, lineText_space_cons, hg, hw]
      rfl
  | binary c l r _ ihl ihr =>
      rw [Expr.yield, lineText_append, Expr.depthAfter_yield, ihl, lineText_operator, ihr]
      simp [pieces, operator]
  | without l _ ih =>
      rw [Expr.yield, lineText_append, Expr.depthAfter_yield, ih, lineText_operator]
      simp [pieces, operator, gapBefore, lineText]
  | counted n _ e _ ih =>
      have hn : k.gap (.integer n) = [' '] := gap_of_starts rfl k
      have hstar : Kind.gap (.integer n) (.mark (.operator .counting)) = [' '] := rfl
      rw [Expr.yield, lineText_space_cons, hn, lineText_space_cons, hstar, ih]
      simp [pieces, operator, written, Mark.char]
  | group b e _ ih =>
      have hb : k.gap (.mark (.opening b)) = [' '] := gap_of_starts rfl k
      rw [Expr.yield, List.cons_append, lineText_space_cons, hb, lineText_append, ih, lineText_space_cons,
        e.gap_closing]
      simp [pieces, written, Mark.char, lineText]
  | empty b =>
      have hb : k.gap (.mark (.opening b)) = [' '] := gap_of_starts rfl k
      have hclose : Kind.gap (.mark (.opening b)) (.mark (.closing b)) = [] := rfl
      rw [Expr.yield, lineText_space_cons, hb, lineText_space_cons, hclose]
      simp [pieces, written, Mark.char, lineText]

/-- The chain of alternatives at the root breaks at the bars outside all
brackets, and at no other ones. -/
theorem lineText_alternatives (style : QuoteStyle) (glue : Text) (k : Kind) {e a : Expr α} {as : List (Expr α)}
    (hw : e.WellBound) (ha : alternatives e = a :: as) :
    lineText style glue 0 k e.yield = ' ' :: plain (pieces style a) ++
        as.flatMap (fun b => glue ++ '|' :: ' ' :: plain (pieces style b)) ∧
      (Barred 0 e.yield ↔ as ≠ []) := by
  have hbase {e : Expr α} {as : List (Expr α)} (hw : e.WellBound) (hs : 1 < e.strength) (ha : [e] = a :: as) :
      lineText style glue 0 k e.yield = ' ' :: plain (pieces style a) ++
          as.flatMap (fun b => glue ++ '|' :: ' ' :: plain (pieces style b)) ∧
        (Barred 0 e.yield ↔ as ≠ []) := by
    obtain ⟨rfl, rfl⟩ := List.cons.inj ha
    have hb : ¬ Barred 0 e.yield := Expr.not_barred_yield (.inr ⟨hw, hs⟩)
    refine ⟨?_, iff_of_false hb (fun h => h rfl)⟩
    rw [lineText_of_not_barred hb 0, lineText_yield]
    simp
  induction e generalizing as with
  | binary c l r p ihl _ =>
      cases c with
      | alternation =>
          obtain ⟨a', as', hl, -⟩ := exists_alternatives l
          rw [alternatives, hl, List.cons_append] at ha
          obtain ⟨rfl, rfl⟩ := List.cons.inj ha
          have hr : ¬ Barred 0 r.yield := Expr.not_barred_yield (.inr ⟨hw.2.2.2, hw.2.1⟩)
          have hbar : Barred 0 (Expr.binary .alternation l r p).yield :=
            ⟨l.yield, r.yield, rfl, Expr.depthAfter_yield 0 l⟩
          refine ⟨?_, iff_of_true hbar (by simp)⟩
          rw [Expr.yield, lineText_append, Expr.depthAfter_yield, (ihl hw.2.2.1 hl).1, lineText_bar,
            lineText_of_not_barred hr 0, lineText_yield]
          simp
      | concatenation => exact hbase hw (by decide : 1 < Connective.concatenation.strength) ha
      | exception => exact hbase hw (by decide : 1 < Connective.exception.strength) ha
  | without => exact hbase hw (by decide : 1 < Connective.exception.strength) ha
  | atom | counted | group | empty => exact hbase hw (by decide : 1 < Operator.counting.strength) ha

theorem lineText_rule (style : QuoteStyle) (glue : Text) (r : Rule α) :
    lineText style glue 0 (.identifier r.name) r.yield.tail =
      " =".toList ++ lineText style glue 0 (.mark .equals) (bodyYield r.body) ++ " ;".toList := by
  have hfirst (ks : List Kind) : lineText style glue 0 (.identifier r.name) (.mark .equals :: ks) =
      " =".toList ++ lineText style glue 0 (.mark .equals) ks := rfl
  have hlast (depth : Nat) (k : Kind) : lineText style glue depth k [.mark .semicolon] = " ;".toList := by
    cases k with
    | mark m => cases m <;> cases depth <;> rfl
    | _ => cases depth <;> rfl
  rw [Rule.yield, List.cons_append, List.cons_append, List.tail_cons, hfirst, lineText_append, hlast,
    List.append_assoc]

theorem barred_rule (r : Rule α) : Barred 0 r.yield.tail ↔ Barred 0 (bodyYield r.body) := by
  simp [Rule.yield, barred_cons, barred_append, not_barred_nil, depthBehind]

def Quiet (notes : Nat → List Text) (i n : Nat) : Prop := ∀ j, i ≤ j → j < i + n → notes j = []

theorem Quiet.mono {notes : Nat → List Text} {i i' n n' : Nat} (h : Quiet notes i n) (hi : i ≤ i')
    (hn : i' + n' ≤ i + n) : Quiet notes i' n' :=
  fun j hl hr => h j (Nat.le_trans hi hl) (Nat.lt_of_lt_of_le hr hn)

theorem Spells.write_eq_plain {newline : Text} {notes : Nat → List Text} {fresh : Bool} {ps : List Piece}
    {ks : List Kind} (h : Spells fresh ps ks) {i : Nat} (hq : Quiet notes i ks.length) (before : Bool) :
    write newline notes before i ps = plain ps := by
  induction h generalizing i before with
  | nil => rfl
  | space _ ih => rw [write, ih hq, plain_space]
  | @word fresh ps k ks l _ _ _ _ ih =>
      have hfirst : notes i = [] := hq i (Nat.le_refl i) (by simp)
      have hrest : Quiet notes (i + 1) ks.length := hq.mono (Nat.le_succ i) (by rw [List.length_cons]; omega)
      rw [write, hfirst, ih hrest, plain_word]
      rfl

namespace Page

variable {p : Page}

theorem write_mark (m : Mark) {ps : List Piece} {ks : List Kind} (h : Spells false ps ks) {i : Nat}
    (hq : Quiet p.notesAt i (ks.length + 1)) : p.write i (.word [m.char] :: ps) = m.char :: plain ps := by
  have hm : Spells true (.word [m.char] :: ps) (.mark m :: ks) := .mark (by simp) h
  exact hm.write_eq_plain hq true

theorem write_pieces {e : Expr Span} (hl : ∀ k ∈ e.yield, k.Legal) {i : Nat}
    (hq : Quiet p.notesAt i e.yield.length) :
    p.write i (pieces p.config.quotes e) = plain (pieces p.config.quotes e) := by
  apply (spells_pieces p.config.quotes hl).write_eq_plain
  rwa [Expr.length_yield_mapAtom]

theorem further_eq_plain {es : List (Expr Span)} {i : Nat} (hl : ∀ e ∈ es, ∀ k ∈ e.yield, k.Legal)
    (hq : Quiet p.notesAt i (es.flatMap fun e => bar :: e.yield).length) :
    p.further i es = es.map fun e => (['|'], plain (pieces p.config.quotes e)) := by
  induction es generalizing i with
  | nil => rfl
  | cons e es ih =>
      obtain ⟨he, hes⟩ := List.forall_mem_cons.1 hl
      rw [List.flatMap_cons, List.length_append, List.length_cons] at hq
      have hbar : p.write i [operator (.joining .alternation)] = ['|'] :=
        write_mark (.operator (.joining .alternation)) (.nil _)
          (hq.mono (Nat.le_refl i) (by rw [List.length_nil]; omega))
      have hpieces := write_pieces he (hq.mono (Nat.le_succ i) (by omega))
      rw [further, hbar, hpieces, ih hes (hq.mono (by omega) (by omega)), List.map_cons]

theorem parts_eq_lineText {e : Entry} (hl : ∀ k ∈ e.rule.yield, k.Legal) (hw : e.rule.WellBound)
    (hq : Quiet p.notesAt (e.index + 1) e.rule.yield.tail.length) (glue : Text) :
    (p.parts e).text glue = e.rule.name.padRight e.width ++
        lineText p.config.quotes glue 0 (.identifier e.rule.name) e.rule.yield.tail ∧
      ((p.parts e).further ≠ [] ↔ Barred 0 e.rule.yield.tail) ∧
      (p.parts e).head = e.rule.name.padRight e.width ++ " = ".toList := by
  have hlen : e.rule.yield.tail.length = (bodyYield e.rule.body).length + 2 := by simp [Rule.yield]
  rw [hlen] at hq
  have hequals : p.write (e.index + 1) [.word ['='], .space] = ['=', ' '] :=
    write_mark .equals (.space (.nil _)) (hq.mono (Nat.le_refl _) (by simp))
  have hend : p.write (e.index + 2 + (bodyYield e.rule.body).length) [.word [';']] = [';'] :=
    write_mark .semicolon (.nil _) (hq.mono (by omega) (by simp; omega))
  rw [lineText_rule, barred_rule]
  cases hb : e.rule.body with
  | none =>
      rw [hb] at hend
      have hnone : p.write (e.index + 2) [.word [';']] = [';'] := hend
      have hnil : bodyYield (none : Option (Expr Span)) = [] := rfl
      simp [parts, Parts.text, hb, hequals, hnone, hnil, lineText, not_barred_nil]
  | some x =>
      rw [hb] at hend hq
      have hx : ∀ k ∈ x.yield, k.Legal := fun k hk => hl k (by simp [Rule.yield, bodyYield, hb, hk])
      obtain ⟨a, as, ha, -⟩ := exists_alternatives x
      obtain ⟨hla, hlas⟩ := forall_alternatives hx ha
      have hsize : x.yield.length = a.yield.length + (as.flatMap fun b => bar :: b.yield).length := by
        rw [yield_of_alternatives ha, List.length_append]
      rw [bodyYield, Option.elim_some] at hend hq ⊢
      have hfirst := write_pieces hla (i := e.index + 2) (hq.mono (by omega) (by omega))
      have hfurther := further_eq_plain (i := e.index + 2 + a.yield.length) hlas (hq.mono (by omega) (by omega))
      obtain ⟨htext, hbar⟩ := lineText_alternatives p.config.quotes glue (.mark .equals) (hw x hb) ha
      rw [htext, hbar]
      simp [parts, Parts.text, hb, ha, bodyYield, hequals, hend, hfirst, hfurther, List.flatMap_map]

/-- The head of a line is two characters longer than what stands in front of
the equals sign. -/
theorem ruleText_eq_lineText {e : Entry} (hl : ∀ k ∈ e.rule.yield, k.Legal) (hw : e.rule.WellBound)
    (hq : Quiet p.notesAt (e.index + 1) e.rule.yield.tail.length) :
    let name := e.rule.name.padRight e.width
    let line (glue : Text) :=
      name ++ lineText p.config.quotes glue 0 (.identifier e.rule.name) e.rule.yield.tail
    p.ruleText e = line (if p.config.lineWidth < (line [' ']).length ∧ Barred 0 e.rule.yield.tail then
      p.newline ++ Text.spaces (name.length + 1) else [' ']) := by
  intro name line
  have hline (glue : Text) : (p.parts e).text glue = line glue := (parts_eq_lineText hl hw hq glue).1
  obtain ⟨-, hfurther, hhead⟩ := parts_eq_lineText hl hw hq []
  have hlen : (p.parts e).head.length - 2 = name.length + 1 := by
    rw [hhead, List.length_append]
    exact Nat.add_sub_assoc (by decide) name.length
  simp only [ruleText, hline, hfurther, hlen, and_comm]
  split <;> rfl

theorem entryText_fillsLines (p : Page) (e : Entry) : (p.entryText e).FillsLines := by
  rw [entryText, ← List.append_assoc]
  exact .newline _ _

end Page

/-- How much room a name is given: that of the longest name in its block, or as
much as it needs. -/
def Entry.room (align : Bool) (b : List Entry) (e : Entry) : Nat :=
  if align then (b.map (·.rule.name.length)).foldr max 0 else e.rule.name.length

theorem length_padRight {w : Nat} {t : Text} (h : t.length ≤ w) : (t.padRight w).length = w := by
  rw [Text.padRight, List.length_append, Text.spaces, List.length_replicate, Nat.add_sub_cancel' h]

section

variable {source : Text} {align : Bool} {rules : List (Rule Span)} {b : List Entry} {e : Entry}

theorem mem_entries_of_mem_entryBlocks (hb : b ∈ entryBlocks align source rules) (he : e ∈ b) :
    e ∈ entries align source rules := by
  rw [← flatten_entryBlocks]
  exact List.mem_flatten_of_mem hb he

theorem width_of_mem_entryBlocks (hb : b ∈ entryBlocks align source rules) (he : e ∈ b) :
    e.width = nameWidth align (b.map (·.rule)) := by
  have hblock (w : Nat) (opens : Bool) (i : Nat) (rs : List (Rule Span)) :
      ∀ f ∈ blockEntries w opens i rs, f.width = w := by
    induction rs generalizing opens i with
    | nil => simp [blockEntries]
    | cons r rs ih => exact List.forall_mem_cons.2 ⟨rfl, ih _ _⟩
  have hfrom (opens : Bool) (i : Nat) (bs : List (List (Rule Span))) (hb : b ∈ entryBlocksFrom align opens i bs) :
      e.width = nameWidth align (b.map (·.rule)) := by
    induction bs generalizing opens i with
    | nil => cases hb
    | cons c bs ih =>
        rcases List.mem_cons.1 hb with rfl | hb
        · rw [map_rule_blockEntries]
          exact hblock _ _ _ _ e he
        · exact ih _ _ hb
  exact hfrom _ _ _ hb

theorem length_name_le_room (he : e ∈ b) : e.rule.name.length ≤ e.room align b := by
  rw [Entry.room]
  split
  · induction b with
    | nil => cases he
    | cons f b ih =>
        rw [List.map_cons, List.foldr_cons]
        rcases List.mem_cons.1 he with rfl | he
        · exact Nat.le_max_left _ _
        · exact Nat.le_trans (ih he) (Nat.le_max_right _ _)
  · exact Nat.le_refl _

theorem padRight_room (hb : b ∈ entryBlocks align source rules) (he : e ∈ b) :
    e.rule.name.padRight e.width = e.rule.name.padRight (e.room align b) := by
  rw [width_of_mem_entryBlocks hb he, nameWidth, Entry.room]
  split
  · rw [List.map_map]
    rfl
  · rw [Text.padRight, Text.padRight, Nat.zero_sub, Nat.sub_self]

end

end Layout

def Text.StandsAt (t : Text) (c : Char) (before : Text) (column : Nat) : Prop :=
  (∃ behind, t = before ++ c :: behind) ∧ (Location.start.after before).column = column

theorem Text.FillsLines.standsAt {before line : Text} (h : before.FillsLines) (hl : '\n' ∉ line) (c : Char)
    (behind : Text) : (before ++ line ++ c :: behind).StandsAt c (before ++ line) (line.length + 1) := by
  refine ⟨⟨behind, rfl⟩, ?_⟩
  rw [Location.after_append, Location.column_after hl, h _ rfl, Nat.add_comm]

namespace Layout

variable {source : Text} {d : Document} {t : Token} {us : List Token} {b : List Entry} {e : Entry}

theorem quiet_of_passedOver (config : Config) (source : Text) {i : Nat} {a : Span}
    (h : d.passedOver i a = t :: us) (hq : ∀ u ∈ us, u.comments = []) :
    Quiet (Page.ofDocument config source d).notesAt (i + 1) us.length := by
  intro j hl hr
  obtain ⟨m, rfl⟩ := Nat.exists_eq_add_of_le hl
  have hm : m < us.length := by omega
  have hu : d.tokens[i + (m + 1)]? = some us[m] := by
    rw [Document.getElem?_of_passedOver h (by simpa using hm), List.getElem?_cons_succ, List.getElem?_eq_getElem hm]
  rw [Nat.add_assoc, Nat.add_comm 1 m, Page.notesAt_of_token hu, hq _ (List.getElem_mem hm)]
  rfl

theorem newline_notMem_of_legal {name : Text} (h : (Kind.identifier name).Legal) : '\n' ∉ name := by
  obtain ⟨c, s, rfl, hc, hs⟩ := Atom.proper_lexeme (a := .identifier name) h
  have hpart : ∀ d ∈ c :: s, Lexeme.isNamePart d = true :=
    List.forall_mem_cons.2 ⟨Lexeme.isNamePart_of_isAlpha hc, hs⟩
  intro hn
  cases hpart _ hn

theorem format_eq_around (config : Config) {front back : List Entry}
    (hs : entries config.align source d.grammar.rules = front ++ e :: back) (ht : d.tokens[e.index]? = some t)
    (hi : ¬ t.Mentions config.ignore) :
    let p := Page.ofDocument config source d
    format config source d = front.flatMap p.entryText ++ (if e.opensBlock then config.newline.text else []) ++
      t.noteLines config.newline.text ++ (p.ruleText e ++
        (config.newline.text ++ (back.flatMap p.entryText ++ p.noteLines (tokenCount d.grammar.rules)))) := by
  intro p
  have hignores : ¬ p.ignores e = true := mt (Page.ignores_iff ht).1 hi
  have hentry : p.entryText e = (if e.opensBlock then config.newline.text else []) ++
      (t.noteLines config.newline.text ++ p.ruleText e ++ config.newline.text) := by
    rw [Page.entryText, Page.spell_openingLexemes, Page.bodyText, if_neg hignores, Page.noteLines_of_token ht]
    rfl
  rw [format_eq_flatMap, hs, List.flatMap_append, List.flatMap_cons, hentry]
  simp [p]

theorem fillsLines_before (p : Page) (front : List Entry) (opens : Bool) (t : Token) :
    Text.FillsLines (front.flatMap p.entryText ++ (if opens then p.newline else []) ++ t.noteLines p.newline) := by
  have hfront : Text.FillsLines (front.flatMap p.entryText) := .flatMap fun e _ => p.entryText_fillsLines e
  have hopening : Text.FillsLines (if opens then p.newline else []) := by
    split
    · exact .newline [] _
    · exact .nil
  have hnotes : Text.FillsLines (t.noteLines p.newline) := .flatMap fun _ _ => .newline _ _
  exact (hfront.append hopening).append hnotes

/-- What is written of a rule without comments inside is its tokens one behind
the other, and the line is broken, if at all, in front of the bars outside all
brackets. All these stand below the equals sign. -/
theorem format_tokenLine (config : Config) (h : Document.ofSource source = .ok d)
    (hb : b ∈ entryBlocks config.align source d.grammar.rules) (he : e ∈ b)
    (ht : d.passedOver e.index e.rule.place = t :: us) (hi : ¬ t.Mentions config.ignore)
    (hq : ∀ u ∈ us, u.comments = []) :
    let p := Page.ofDocument config source d
    let out := format config source d
    let w := e.room config.align b
    let name := e.rule.name.padRight w
    let body (glue : Text) := lineText config.quotes glue 0 t.kind (us.map (·.kind))
    let broken := config.lineWidth < (name ++ body [' ']).length ∧ Barred 0 (us.map (·.kind))
    let glue := if broken then config.newline.text ++ Text.spaces (w + 1) else [' ']
    b.map (·.rule) ∈ blocks source d.grammar.rules ∧ (t :: us).map (·.kind) = e.rule.yield ∧
    ∃ front back, entries config.align source d.grammar.rules = front ++ e :: back ∧
      let before := front.flatMap p.entryText ++ (if e.opensBlock then config.newline.text else []) ++
        t.noteLines config.newline.text
      let behind := config.newline.text ++ (back.flatMap p.entryText ++ p.noteLines (tokenCount d.grammar.rules))
      out = before ++ (name ++ body glue ++ behind) ∧ out.StandsAt '=' (before ++ name ++ [' ']) (w + 2) ∧
      (broken → ∀ ks ls, us.map (·.kind) = ks ++ bar :: ls → depthAfter 0 ks = 0 →
        out.StandsAt '|' (before ++ name ++ lineText config.quotes glue 0 t.kind ks ++ glue) (w + 2)) := by
  intro p out w name body broken glue
  have hmem : e ∈ entries config.align source d.grammar.rules := mem_entries_of_mem_entryBlocks hb he
  have hblock : b.map (·.rule) ∈ blocks source d.grammar.rules := by
    rw [← map_rule_entryBlocks config.align]
    exact List.mem_map_of_mem hb
  obtain ⟨ps, trail, hd⟩ := Document.printed_of_ofSource h
  obtain ⟨hpasses, t', ht', -⟩ := Document.exists_name_token h (mem_ruleStarts_of_mem_entries hmem)
  have htoken : d.tokens[e.index]? = some t := Document.getElem?_of_passedOver ht (j := 0) (by simp)
  rw [ht] at hpasses
  have hkinds : t.kind = .identifier e.rule.name ∧ us.map (·.kind) = e.rule.yield.tail := List.cons.inj hpasses
  have hrule : e.rule ∈ d.grammar.rules := rule_mem_of_mem_entries hmem
  have hquiet : Quiet p.notesAt (e.index + 1) e.rule.yield.tail.length := by
    rw [← hkinds.2, List.length_map]
    exact quiet_of_passedOver config source ht hq
  have hname : e.rule.name.padRight e.width = name := padRight_room hb he
  have hw : name.length = w := length_padRight (length_name_le_room he)
  have hline : p.ruleText e = name ++ body glue := by
    have := Page.ruleText_eq_lineText (hd.laid.legal _ hrule) (hd.wellBound _ hrule) hquiet
    simp only [hname, hw, ← hkinds.1, ← hkinds.2] at this
    exact this
  refine ⟨hblock, hpasses, ?_⟩
  obtain ⟨front, back, hsplit⟩ := List.append_of_mem hmem
  refine ⟨front, back, hsplit, ?_⟩
  intro before behind
  have hout : out = before ++ (name ++ body glue ++ behind) := by
    rw [← hline]
    exact format_eq_around config hsplit htoken hi
  have hbefore : Text.FillsLines before := fillsLines_before _ _ _ _
  refine ⟨hout, ?_, fun hbroken ks ls hks hdepth => ?_⟩
  · have hplain : '\n' ∉ name ++ [' '] := by
      have hlegal : (Kind.identifier e.rule.name).Legal := hd.laid.legal _ hrule _ List.mem_cons_self
      simp [name, Text.padRight, Text.spaces, newline_notMem_of_legal hlegal]
    have hbody : body glue = ' ' :: '=' :: (lineText config.quotes glue 0 (.mark .equals)
        (bodyYield e.rule.body) ++ " ;".toList) := by
      simp only [body, hkinds.1, hkinds.2]
      exact lineText_rule config.quotes glue e.rule
    have hstands := hbefore.standsAt hplain '=' (lineText config.quotes glue 0 (.mark .equals)
      (bodyYield e.rule.body) ++ " ;".toList ++ behind)
    rw [List.length_append, hw] at hstands
    rw [hout, hbody]
    simpa using hstands
  · have hglue : glue = config.newline.text ++ Text.spaces (w + 1) := if_pos hbroken
    have hbody : body glue = lineText config.quotes glue 0 t.kind ks ++ (glue ++ '|' ::
        lineText config.quotes glue 0 bar ls) := by
      simp only [body, hks]
      rw [lineText_append, hdepth, lineText_bar]
    have hstart := Text.FillsLines.newline (before ++ name ++ lineText config.quotes glue 0 t.kind ks) config.newline
    have hspaces : '\n' ∉ Text.spaces (w + 1) := by simp [Text.spaces]
    have hstands := hstart.standsAt hspaces '|' (lineText config.quotes glue 0 bar ls ++ behind)
    rw [List.append_assoc _ config.newline.text, ← hglue, Text.spaces, List.length_replicate] at hstands
    rw [hout, hbody]
    simpa using hstands

theorem format_tokenLine_of_aligned_rules :
    let source : Text := "a=\"x\"|[b|c],01*d|e-;\nlong={};".toList
    let config : Config := { lineWidth := 20, quotes := .prefer .single }
    ∃ d, Document.ofSource source = .ok d ∧ format config source d =
        "a    = 'x'\n     | [ b | c ], 1 * d\n     | e - ;\nlong = {} ;\n".toList ∧
      ∀ b ∈ entryBlocks config.align source d.grammar.rules, ∀ e ∈ b, ∃ t us,
        d.passedOver e.index e.rule.place = t :: us ∧ ¬ t.Mentions config.ignore ∧ (∀ u ∈ us, u.comments = []) ∧
          ∃ before, (format config source d).StandsAt '=' before 6 := by
  intro source config
  obtain ⟨d, h, hd⟩ : ∃ d, Document.ofSource source = .ok d ∧ (format config source d,
      decide (∀ b ∈ entryBlocks config.align source d.grammar.rules, ∀ e ∈ b, e.room config.align b = 4 ∧
        d.passedOver e.index e.rule.place ≠ [] ∧ ∀ t ∈ d.passedOver e.index e.rule.place, t.comments = [])) =
      ("a    = 'x'\n     | [ b | c ], 1 * d\n     | e - ;\nlong = {} ;\n".toList, true) :=
    exists_of_map_eq_ok (by decide +kernel)
  obtain ⟨hout, hall⟩ := Prod.mk.inj hd
  refine ⟨d, h, hout, fun b hb e he => ?_⟩
  obtain ⟨hroom, hne, hquiet⟩ := of_decide_eq_true hall b hb e he
  obtain ⟨t, us, ht⟩ := List.exists_cons_of_ne_nil hne
  rw [ht] at hquiet
  obtain ⟨hname, hus⟩ := List.forall_mem_cons.1 hquiet
  have hi : ¬ t.Mentions config.ignore := by
    rintro ⟨c, hc, -⟩
    rw [hname] at hc
    cases hc
  obtain ⟨-, -, front, back, -, -, hequals, -⟩ := format_tokenLine config h hb he ht hi hus
  rw [hroom] at hequals
  exact ⟨t, us, ht, hi, hus, _, hequals⟩

end Layout

end Ebnf
