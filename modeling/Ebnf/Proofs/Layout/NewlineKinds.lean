import Ebnf.Proofs.Document.Slices
import Ebnf.Proofs.Layout.LineEnds

namespace Ebnf

open Lexeme Layout

/-- The token does not have the character in a text of its own. -/
def Kind.Lacks (k : Kind) (c : Char) : Prop := ∀ t, k.literal? = some t → c ∉ t

namespace Layout

/-- `w` is the text `t` with `k` of its breaks made long. -/
structure Widened (t w : Text) (k : Nat) : Prop where
  unixBreaks_eq : Text.unixBreaks w = t
  length_eq : w.length = t.length + k
  uncut : w.getLast? ≠ some '\r'

def breakCount (ts : List Text) : Nat := ts.flatten.count '\n'

theorem breakCount_cons (t : Text) (ts : List Text) : breakCount (t :: ts) = t.count '\n' + breakCount ts := by
  simp [breakCount]

theorem breakCount_append (ts us : List Text) : breakCount (ts ++ us) = breakCount ts + breakCount us := by
  simp [breakCount]

def breaksFrom (notes : Nat → List Text) (i n : Nat) : Nat := breakCount ((List.range' i n).flatMap notes)

theorem breaksFrom_add (notes : Nat → List Text) (i m n : Nat) :
    breaksFrom notes i (m + n) = breaksFrom notes i m + breaksFrom notes (i + m) n := by
  rw [breaksFrom, ← List.range'_append_1, List.flatMap_append, breakCount_append]
  rfl

theorem breaksFrom_one (notes : Nat → List Text) (i : Nat) : breaksFrom notes i 1 = breakCount (notes i) := by
  simp [breaksFrom]

namespace Widened

variable {t w t' w' : Text} {k k' : Nat}

theorem self (h : '\r' ∉ t) : Widened t t 0 := by
  refine ⟨Text.unixBreaks_eq_self.2 fun hi => h (hi.mem (by simp)), rfl, fun hl => ?_⟩
  exact h (List.mem_of_getLast? hl)

theorem nil : Widened [] [] 0 := self List.not_mem_nil

theorem of_eq (h : Widened t w k) (hk : k = k') : Widened t w k' := hk ▸ h

theorem append (h : Widened t w k) (h' : Widened t' w' k') : Widened (t ++ t') (w ++ w') (k + k') := by
  refine ⟨?_, ?_, ?_⟩
  · rw [Text.unixBreaks_append (.inl h.uncut), h.unixBreaks_eq, h'.unixBreaks_eq]
  · rw [List.length_append, List.length_append, h.length_eq, h'.length_eq]
    omega
  · rw [List.getLast?_append]
    have hl := h.uncut
    have hl' := h'.uncut
    cases hw : w'.getLast? with
    | none => simpa using hl
    | some c => simpa [hw] using hl'

theorem newline : Widened Newline.unix.text Newline.windows.text 1 := ⟨rfl, rfl, by decide⟩

theorem spaces (n : Nat) : Widened (Text.spaces n) (Text.spaces n) 0 := self (by simp [Text.spaces])

theorem replaceBreaks (h : '\r' ∉ t) :
    Widened (Text.replaceBreaks Newline.unix.text t) (Text.replaceBreaks Newline.windows.text t) (t.count '\n') := by
  induction t with
  | nil => exact nil
  | cons c t ih =>
      rw [List.mem_cons, not_or] at h
      by_cases hc : c = '\n'
      · rw [hc, Text.replaceBreaks_cons_break, Text.replaceBreaks_cons_break, List.count_cons_self, Nat.add_comm]
        exact newline.append (ih h.2)
      · have hchar : Widened [c] [c] 0 := self (by simpa using h.1)
        rw [Text.replaceBreaks_cons _ hc, Text.replaceBreaks_cons _ hc, List.count_cons_of_ne hc,
          ← Nat.zero_add (List.count _ _)]
        exact hchar.append (ih h.2)

theorem commentText {c : Text} (h : '\r' ∉ c) :
    Widened (commentText Newline.unix.text c) (commentText Newline.windows.text c) (c.count '\n') := by
  have hopen : Widened ['(', '*'] ['(', '*'] 0 := self (by decide)
  have hclose : Widened ['*', ')'] ['*', ')'] 0 := self (by decide)
  have hinside : Widened (normalText .unix c) (normalText .windows c) (c.count '\n') := by
    by_cases hc : '\n' ∈ c
    · rw [normalText_of_break hc, normalText_of_break hc,
        Text.unixBreaks_eq_self.2 fun hi => h (hi.mem (by simp))]
      exact replaceBreaks h
    · rw [normalText_of_line hc, normalText_of_line hc, List.count_eq_zero.2 hc]
      apply self
      have htrim : '\r' ∉ Blank.trim c := fun hm => h ((Blank.trim_infix_self c).mem hm)
      simpa using htrim
  have hall := (hopen.append hinside).append hclose
  rwa [Nat.zero_add, Nat.add_zero] at hall

theorem commentsText {cs : List Text} (h : ∀ c ∈ cs, '\r' ∉ c) (fresh : Bool) :
    Widened (commentsText Newline.unix.text fresh cs) (commentsText Newline.windows.text fresh cs)
      (breakCount cs) := by
  induction cs generalizing fresh with
  | nil => exact nil
  | cons c cs ih =>
      obtain ⟨hc, hcs⟩ := List.forall_mem_cons.1 h
      have hfront : Widened (if fresh then [] else [' ']) (if fresh then [] else [' ']) 0 :=
        self (by cases fresh <;> simp)
      have hspace : Widened [' '] [' '] 0 := self (by simp)
      have hall := (hfront.append (commentText hc)).append (hspace.append (ih hcs true))
      rw [Nat.zero_add, Nat.zero_add, ← breakCount_cons] at hall
      exact hall

end Widened

theorem notMem_spelling {l : Lexeme} {k : Kind} (h : l.Proper) (hk : l.kind? = some k)
    (hl : k.Lacks '\r') : '\r' ∉ l.spelling := by
  cases hn : k.literal? with
  | none => exact fun hm => by cases isGap_of_mem_spelling h hk hn _ hm
  | some t =>
      have ht := hl t hn
      cases l with
      | gap | comment => cases hk
      | terminal text quote =>
          cases hk
          cases hn
          cases quote <;> simpa [spelling, Quote.char] using ht
      | special text =>
          cases hk
          cases hn
          simpa [spelling] using ht
      | identifier | integer | mark =>
          cases hk
          cases hn

variable {notes : Nat → List Text}

theorem Widened.write (hn : ∀ i, ∀ c ∈ notes i, '\r' ∉ c) {fresh : Bool} {ps : List Piece} {ks : List Kind}
    (h : Spells fresh ps ks) (hk : ∀ k ∈ ks, k.Lacks '\r') (i : Nat) (before : Bool) :
    Widened (write Newline.unix.text notes before i ps) (write Newline.windows.text notes before i ps)
      (breaksFrom notes i ks.length) := by
  induction h generalizing i before with
  | nil => exact .nil
  | space _ ih =>
      have hspace : Widened [' '] [' '] 0 := .self (by simp)
      have hall := hspace.append (ih hk i true)
      rwa [Nat.zero_add] at hall
  | @word fresh ps k ks l hp hl _ _ ih =>
      obtain ⟨hfirst, hrest⟩ := List.forall_mem_cons.1 hk
      have hword : Widened l.spelling l.spelling 0 := .self (notMem_spelling hp hl hfirst)
      have hall := ((Widened.commentsText (hn i) before).append hword).append (ih hrest (i + 1) false)
      rw [List.length_cons, Nat.add_comm ks.length, breaksFrom_add, breaksFrom_one]
      exact hall

namespace Page

def withNewline (nl : Newline) (p : Page) : Page := { p with config := { p.config with newline := nl } }

variable {p : Page} (hn : ∀ i, ∀ c ∈ p.notesAt i, '\r' ∉ c)
include hn

theorem widened_write {ps : List Piece} {ks : List Kind} (h : Spells true ps ks) (hk : ∀ k ∈ ks, k.Lacks '\r')
    (i : Nat) : Widened ((p.withNewline .unix).write i ps) ((p.withNewline .windows).write i ps)
      (breaksFrom p.notesAt i ks.length) :=
  Widened.write hn h hk i true

omit hn in
theorem lacks_requote {α : Type} (style : QuoteStyle) {e : Expr α} {c : Char} (h : ∀ k ∈ e.yield, k.Lacks c) :
    ∀ k ∈ (e.mapAtom (Atom.requote style)).yield, k.Lacks c := by
  have hkeep (a : Atom) : (a.requote style).kind.literal? = a.kind.literal? := by cases a <;> rfl
  intro k hk t ht
  have hmem : k.literal? ∈ (e.mapAtom (Atom.requote style)).yield.map Kind.literal? := List.mem_map_of_mem hk
  rw [Expr.map_yield_mapAtom hkeep] at hmem
  obtain ⟨k', hk', he⟩ := List.mem_map.1 hmem
  exact h k' hk' t (he.trans ht)

theorem widened_pieces {e : Expr Span} (hl : ∀ k ∈ e.yield, k.Legal) (hk : ∀ k ∈ e.yield, k.Lacks '\r') (i : Nat) :
    Widened ((p.withNewline .unix).write i (pieces p.config.quotes e))
      ((p.withNewline .windows).write i (pieces p.config.quotes e)) (breaksFrom p.notesAt i e.yield.length) := by
  have h := widened_write hn (spells_pieces p.config.quotes hl) (lacks_requote p.config.quotes hk) i
  rwa [Expr.length_yield_mapAtom] at h

theorem widened_mark {m : Mark} (i : Nat) :
    Widened ((p.withNewline .unix).write i [.word [m.char]]) ((p.withNewline .windows).write i [.word [m.char]])
      (breaksFrom p.notesAt i 1) :=
  widened_write hn (.mark (by simp) (.nil _)) (List.forall_mem_singleton.2 (by simp [Kind.Lacks, Kind.literal?])) i

theorem widened_further {g g' : Text} {k : Nat} (hg : Widened g g' k) {es : List (Expr Span)}
    (hl : ∀ e ∈ es, ∀ k ∈ e.yield, k.Legal) (hk : ∀ e ∈ es, ∀ k ∈ e.yield, k.Lacks '\r') (i : Nat) :
    Widened (((p.withNewline .unix).further i es).flatMap fun s => g ++ s.1 ++ ' ' :: s.2)
      (((p.withNewline .windows).further i es).flatMap fun s => g' ++ s.1 ++ ' ' :: s.2)
      (es.length * k + breaksFrom p.notesAt i
        (es.flatMap fun e => .mark (.operator (.joining .alternation)) :: e.yield).length) := by
  induction es generalizing i with
  | nil =>
      rw [List.length_nil, Nat.zero_mul]
      exact .nil
  | cons e es ih =>
      obtain ⟨hle, hles⟩ := List.forall_mem_cons.1 hl
      obtain ⟨hke, hkes⟩ := List.forall_mem_cons.1 hk
      have hbar := widened_mark hn (m := .operator (.joining .alternation)) i
      have hspace : Widened [' '] [' '] 0 := .self (by simp)
      have hfirst := (hg.append hbar).append (hspace.append (widened_pieces hn hle hke (i + 1)))
      have hrest := ih hles hkes (i + 1 + e.yield.length)
      have hcount : (e :: es).length * k + breaksFrom p.notesAt i ((e :: es).flatMap fun e =>
          Kind.mark (.operator (.joining .alternation)) :: e.yield).length =
          k + breaksFrom p.notesAt i 1 + (0 + breaksFrom p.notesAt (i + 1) e.yield.length) +
            (es.length * k + breaksFrom p.notesAt (i + 1 + e.yield.length)
              (es.flatMap fun e => Kind.mark (.operator (.joining .alternation)) :: e.yield).length) := by
        rw [List.flatMap_cons, List.length_append, List.length_cons, List.length_cons, Nat.add_comm e.yield.length,
          breaksFrom_add, breaksFrom_add, Nat.add_assoc i, Nat.succ_mul]
        omega
      rw [hcount]
      exact hfirst.append hrest

omit hn in
theorem length_further (p : Page) (i : Nat) (es : List (Expr Span)) : (p.further i es).length = es.length := by
  induction es generalizing i with
  | nil => rfl
  | cons e es ih => rw [further, List.length_cons, List.length_cons, ih]

omit hn in
theorem length_further_parts (p : Page) (nl : Newline) (e : Entry) :
    ((p.withNewline nl).parts e).further.length = (e.rule.body.elim [] alternatives).tail.length := by
  rw [parts]
  cases e.rule.body.elim [] alternatives with
  | nil => rfl
  | cons a as => exact length_further _ _ _

theorem widened_head {e : Entry} (hl : ∀ k ∈ e.rule.yield, k.Legal) :
    Widened ((p.withNewline .unix).parts e).head ((p.withNewline .windows).parts e).head
      (breaksFrom p.notesAt (e.index + 1) 1) := by
  have hname : '\r' ∉ e.rule.name :=
    notMem_spelling (Atom.proper_lexeme (a := .identifier e.rule.name) (hl _ List.mem_cons_self)) rfl
      (by simp [Kind.Lacks, Kind.literal?])
  have hpad : Widened (e.rule.name.padRight e.width ++ [' ']) (e.rule.name.padRight e.width ++ [' ']) 0 :=
    .self (by simp [Text.padRight, Text.spaces, hname])
  have hspells : Spells true [.word ['='], .space] [.mark .equals] :=
    .mark (m := .equals) (by simp) (.space (.nil _))
  have hequals := widened_write hn hspells (by simp [Kind.Lacks, Kind.literal?]) (e.index + 1)
  have hall := hpad.append hequals
  rw [Nat.zero_add, List.append_assoc, List.append_assoc] at hall
  have hhead (nl : Newline) : ((p.withNewline nl).parts e).head = e.rule.name.padRight e.width ++
      ([' '] ++ (p.withNewline nl).write (e.index + 1) [.word ['='], .space]) := by
    rw [parts]
    cases e.rule.body.elim [] alternatives <;> rfl
  rw [hhead, hhead]
  exact hall

/-- The line of a rule with one kind of breaks and with the other, broken in the
same places. -/
theorem widened_line {e : Entry} (hl : ∀ k ∈ e.rule.yield, k.Legal) (hk : ∀ k ∈ e.rule.yield, k.Lacks '\r')
    {g g' : Text} {k : Nat} (hg : Widened g g' k) :
    Widened (((p.withNewline .unix).parts e).text g) (((p.withNewline .windows).parts e).text g')
      (((p.withNewline .unix).parts e).further.length * k +
        breaksFrom p.notesAt (e.index + 1) (e.rule.yield.length - 1)) := by
  have hhead := widened_head hn hl
  have hbehind := widened_mark hn (m := .semicolon) (e.index + 2 + (bodyYield e.rule.body).length)
  have hlen : e.rule.yield.length - 1 = 1 + ((bodyYield e.rule.body).length + 1) := by
    rw [e.rule.yield_length]
    omega
  have htwo : e.index + 1 + 1 = e.index + 2 := rfl
  rw [hlen, breaksFrom_add, breaksFrom_add, htwo]
  obtain ⟨i, w, opens, name, np, body, place⟩ := e
  cases body with
  | none =>
      have hall := hhead.append hbehind
      have hzero : breaksFrom p.notesAt (i + 2) 0 = 0 := rfl
      simpa [parts, Parts.text, bodyYield, hzero, Mark.char] using hall
  | some e =>
      obtain ⟨a, as, ha, -⟩ := exists_alternatives e
      have hmem {k : Kind} (hk : k ∈ e.yield) : k ∈ (Rule.mk name np (some e) place).yield := by
        simp [Rule.yield, bodyYield, hk]
      obtain ⟨hla, hlas⟩ := forall_alternatives (fun k hke => hl k (hmem hke)) ha
      obtain ⟨hka, hkas⟩ := forall_alternatives (fun k hke => hk k (hmem hke)) ha
      have hspace : Widened [' '] [' '] 0 := .self (by simp)
      have hfirst := hhead.append (widened_pieces hn hla hka (i + 2))
      have hall := (hfirst.append (widened_further hn hg hlas hkas (i + 2 + a.yield.length))).append
        (hspace.append hbehind)
      have hcount : breaksFrom p.notesAt (i + 2) (bodyYield (some e)).length =
          breaksFrom p.notesAt (i + 2) a.yield.length + breaksFrom p.notesAt (i + 2 + a.yield.length)
            (as.flatMap fun b => Kind.mark (.operator (.joining .alternation)) :: b.yield).length := by
        rw [bodyYield, Option.elim_some, yield_of_alternatives ha, List.length_append, breaksFrom_add]
      have hfurther : ((p.withNewline .unix).parts ⟨i, w, opens, name, np, some e, place⟩).further.length =
          as.length := by rw [length_further_parts, Option.elim_some, ha, List.tail_cons]
      have htext (nl : Newline) (g : Text) :
          ((p.withNewline nl).parts ⟨i, w, opens, name, np, some e, place⟩).text g =
            ((p.withNewline nl).parts ⟨i, w, opens, name, np, some e, place⟩).head ++
              (p.withNewline nl).write (i + 2) (pieces p.config.quotes a) ++
              (((p.withNewline nl).further (i + 2 + a.yield.length) as).flatMap fun s => g ++ s.1 ++ ' ' :: s.2) ++
              ([' '] ++ (p.withNewline nl).write (i + 2 + (bodyYield (some e)).length) [.word [';']]) := by
        simp only [Parts.text, parts, Option.elim_some, ha]
        rfl
      rw [htext, htext, hfurther, hcount]
      exact hall.of_eq (by dsimp only; omega)

end Page

namespace Parts

theorem text_of_further_nil {p : Parts} (h : p.further = []) (g g' : Text) : p.text g = p.text g' := by
  simp [text, h]

theorem length_text (p : Parts) (g : Text) :
    (p.text g).length = (p.text []).length + p.further.length * g.length := by
  have h (xs : List (Text × Text)) : (xs.flatMap fun s => g ++ s.1 ++ ' ' :: s.2).length =
      (xs.flatMap fun s => [] ++ s.1 ++ ' ' :: s.2).length + xs.length * g.length := by
    induction xs with
    | nil => simp
    | cons x xs ih =>
        simp only [List.flatMap_cons, List.length_append, List.length_nil, List.length_cons, ih, Nat.succ_mul]
        omega
  simp only [text, List.length_append, h p.further]
  omega

/-- What stands in front of the separators when the line is taken for `k`
characters longer than it is, and its head for `k₁`. -/
def glue (p : Parts) (width k k₁ : Nat) : Text :=
  if (p.text [' ']).length + k ≤ width then [' '] else '\n' :: Text.spaces (p.head.length + k₁ - 2)

/-- The extra characters neither break the line nor move the separators. -/
def Unmoved (p : Parts) (width k k₁ : Nat) : Prop :=
  p.further ≠ [] → if (p.text [' ']).length ≤ width then (p.text [' ']).length + k ≤ width else k₁ = 0

instance (p : Parts) (width k k₁ : Nat) : Decidable (p.Unmoved width k k₁) :=
  inferInstanceAs (Decidable
    (p.further ≠ [] → if (p.text [' ']).length ≤ width then (p.text [' ']).length + k ≤ width else k₁ = 0))

variable {p : Parts} {width k k₁ : Nat}

theorem length_glue_le : (p.glue width 0 0).length ≤ (p.glue width k k₁).length := by
  rw [glue, glue]
  split <;> split <;> simp [Text.spaces] <;> omega

theorem glue_eq (h : p.Unmoved width k k₁) (hf : p.further ≠ []) : p.glue width k k₁ = p.glue width 0 0 := by
  have hu := h hf
  rw [glue, glue]
  by_cases hw : (p.text [' ']).length ≤ width
  · rw [if_pos hw] at hu
    rw [if_pos hu, if_pos (by simpa using hw)]
  · rw [if_neg hw] at hu
    rw [if_neg (by omega), if_neg (by simpa using hw), hu]

theorem unmoved_of_length_glue (hh : 3 ≤ p.head.length) (h : (p.glue width k k₁).length = (p.glue width 0 0).length) :
    p.Unmoved width k k₁ := by
  intro _
  rw [glue, glue] at h
  by_cases hw : (p.text [' ']).length ≤ width
  · rw [if_pos hw]
    by_contra hk
    rw [if_neg hk, if_pos (by simpa using hw)] at h
    simp [Text.spaces] at h
    omega
  · rw [if_neg hw]
    rw [if_neg (by omega), if_neg (by simpa using hw)] at h
    simp [Text.spaces] at h
    omega

theorem text_glue_eq_iff (hh : 3 ≤ p.head.length) :
    p.text (p.glue width k k₁) = p.text (p.glue width 0 0) ↔ p.Unmoved width k k₁ := by
  by_cases hf : p.further = []
  · exact iff_of_true (text_of_further_nil hf _ _) fun h => absurd hf h
  · refine ⟨fun h => unmoved_of_length_glue hh ?_, fun h => by rw [glue_eq h hf]⟩
    have hlen := congrArg List.length h
    rw [length_text, length_text p (p.glue width 0 0)] at hlen
    exact Nat.eq_of_mul_eq_mul_left (List.length_pos_of_ne_nil hf) (by omega)

theorem length_text_glue_le : (p.text (p.glue width 0 0)).length ≤ (p.text (p.glue width k k₁)).length := by
  rw [length_text, length_text p (p.glue width k k₁)]
  exact Nat.add_le_add_left (Nat.mul_le_mul_left _ length_glue_le) _

end Parts

section

variable {α β : Type} {f g : α → List β} {xs : List α}

theorem length_flatMap_le (h : ∀ x ∈ xs, (f x).length ≤ (g x).length) :
    (xs.flatMap f).length ≤ (xs.flatMap g).length := by
  induction xs with
  | nil => exact Nat.le_refl _
  | cons x xs ih =>
      obtain ⟨hx, hxs⟩ := List.forall_mem_cons.1 h
      rw [List.flatMap_cons, List.flatMap_cons, List.length_append, List.length_append]
      exact Nat.add_le_add hx (ih hxs)

theorem flatMap_eq_iff_of_length_le (h : ∀ x ∈ xs, (f x).length ≤ (g x).length) :
    xs.flatMap g = xs.flatMap f ↔ ∀ x ∈ xs, g x = f x := by
  refine ⟨fun he => ?_, List.flatMap_congr⟩
  induction xs with
  | nil => simp
  | cons x xs ih =>
      obtain ⟨hx, hxs⟩ := List.forall_mem_cons.1 h
      rw [List.flatMap_cons, List.flatMap_cons] at he
      have hlen := congrArg List.length he
      rw [List.length_append, List.length_append] at hlen
      have hrest := length_flatMap_le hxs
      obtain ⟨hgx, hgxs⟩ := List.append_inj he (by omega)
      exact List.forall_mem_cons.2 ⟨hgx, ih hxs hgxs⟩

end

namespace Page

def entryTextWith (p : Page) (e : Entry) (body : Text) : Text :=
  spell ((p.withNewline .unix).openingLexemes e) ++
    ((p.withNewline .unix).noteLines e.index ++ body ++ Newline.unix.text)

/-- The rule of an entry as it is broken when the long breaks in its comments
are measured. -/
def measuredText (p : Page) (e : Entry) : Text :=
  if p.ignores e then e.rule.place.slice p.source
  else ((p.withNewline .unix).parts e).text (((p.withNewline .unix).parts e).glue p.config.lineWidth
    (breaksFrom p.notesAt (e.index + 1) (e.rule.yield.length - 1)) (breaksFrom p.notesAt (e.index + 1) 1))

variable {p : Page}

theorem ruleText_unix (p : Page) (e : Entry) : (p.withNewline .unix).ruleText e =
    ((p.withNewline .unix).parts e).text (((p.withNewline .unix).parts e).glue p.config.lineWidth 0 0) := by
  have hwidth : (p.withNewline .unix).config.lineWidth = p.config.lineWidth := rfl
  rw [ruleText, hwidth]
  by_cases hf : ((p.withNewline .unix).parts e).further = []
  · rw [if_neg fun h => h.1 hf]
    exact Parts.text_of_further_nil hf _ _
  · by_cases hw : p.config.lineWidth < (((p.withNewline .unix).parts e).text [' ']).length
    · rw [if_pos ⟨hf, hw⟩, Parts.glue, if_neg (by simpa using hw)]
      rfl
    · rw [if_neg fun h => hw h.2, Parts.glue, if_pos (by simpa using hw)]

theorem three_le_length_head (p : Page) (e : Entry) : 3 ≤ (p.parts e).head.length := by
  have hwrite : 2 ≤ (p.write (e.index + 1) [.word ['='], .space]).length := by
    simp [Page.write, Layout.write]
  rw [parts]
  cases e.rule.body.elim [] alternatives <;> simp <;> omega

section

variable (hn : ∀ i, ∀ c ∈ p.notesAt i, '\r' ∉ c)
include hn

theorem exists_widened_ruleText {e : Entry} (hi : p.ignores e = false) (hl : ∀ k ∈ e.rule.yield, k.Legal)
    (hk : ∀ k ∈ e.rule.yield, k.Lacks '\r') :
    ∃ k, Widened (p.measuredText e) ((p.withNewline .windows).ruleText e) k := by
  have hhead := (widened_head hn hl).length_eq
  have hspace : Widened [' '] [' '] 0 := .self (by simp)
  have hline := (widened_line hn hl hk hspace).length_eq
  rw [Nat.mul_zero, Nat.zero_add] at hline
  have hwidth : (p.withNewline .windows).config.lineWidth = p.config.lineWidth := rfl
  rw [measuredText, hi, if_neg Bool.false_ne_true, ruleText, hwidth]
  by_cases hf : ((p.withNewline .windows).parts e).further = []
  · have hf' : ((p.withNewline .unix).parts e).further = [] := by
      rw [← List.length_eq_zero_iff, length_further_parts, ← length_further_parts p .windows, hf, List.length_nil]
    rw [if_neg fun h => h.1 hf, Parts.text_of_further_nil hf' _ [' ']]
    exact ⟨_, widened_line hn hl hk hspace⟩
  · rw [hline, hhead]
    by_cases hw : p.config.lineWidth < (((p.withNewline .unix).parts e).text [' ']).length +
        breaksFrom p.notesAt (e.index + 1) (e.rule.yield.length - 1)
    · rw [if_pos ⟨hf, hw⟩, Parts.glue, if_neg (Nat.not_le_of_lt hw)]
      exact ⟨_, widened_line hn hl hk (Widened.newline.append (.spaces _))⟩
    · rw [if_neg fun h => hw h.2, Parts.glue, if_pos (Nat.le_of_not_lt hw)]
      exact ⟨_, widened_line hn hl hk hspace⟩

theorem widened_noteLines (i : Nat) : Widened ((p.withNewline .unix).noteLines i)
    ((p.withNewline .windows).noteLines i) (breakCount (p.notesAt i) + (p.notesAt i).length) := by
  have h {cs : List Text} (hcs : ∀ c ∈ cs, '\r' ∉ c) :
      Widened (cs.flatMap fun c => commentText Newline.unix.text c ++ Newline.unix.text)
        (cs.flatMap fun c => commentText Newline.windows.text c ++ Newline.windows.text)
        (breakCount cs + cs.length) := by
    induction cs with
    | nil => exact .nil
    | cons c cs ih =>
        obtain ⟨hc, hcs⟩ := List.forall_mem_cons.1 hcs
        refine (((Widened.commentText hc).append .newline).append (ih hcs)).of_eq ?_
        rw [breakCount_cons, List.length_cons]
        omega
  exact h (hn i)

theorem exists_widened_entryText {e : Entry} (hl : ∀ k ∈ e.rule.yield, k.Legal)
    (hk : ∀ k ∈ e.rule.yield, k.Lacks '\r') (hs : '\r' ∉ e.rule.place.slice p.source) :
    ∃ k, Widened (p.entryTextWith e (p.measuredText e)) ((p.withNewline .windows).entryText e) k := by
  have hopening : ∃ k, Widened (spell ((p.withNewline .unix).openingLexemes e))
      (spell ((p.withNewline .windows).openingLexemes e)) k := by
    rw [spell_openingLexemes, spell_openingLexemes]
    split
    · exact ⟨1, .newline⟩
    · exact ⟨0, .nil⟩
  have hbody : ∃ k, Widened (p.measuredText e) ((p.withNewline .windows).bodyText e) k := by
    cases hi : p.ignores e with
    | true =>
        refine ⟨0, ?_⟩
        have hi' : (p.withNewline .windows).ignores e = true := hi
        rw [measuredText, bodyText, if_pos hi, if_pos hi']
        exact .self hs
    | false =>
        have hi' : (p.withNewline .windows).ignores e = false := hi
        rw [bodyText, hi', if_neg Bool.false_ne_true]
        exact exists_widened_ruleText hn hi hl hk
  obtain ⟨k, hopening⟩ := hopening
  obtain ⟨k', hbody⟩ := hbody
  exact ⟨_, hopening.append (((widened_noteLines hn e.index).append hbody).append .newline)⟩

end

/-- Long breaks leave an entry as it is if they neither break its line nor move
its separators. -/
theorem entryTextWith_eq_iff {e : Entry} :
    p.entryTextWith e (p.measuredText e) = (p.withNewline .unix).entryText e ↔
      (p.ignores e = false → ((p.withNewline .unix).parts e).Unmoved p.config.lineWidth
        (breaksFrom p.notesAt (e.index + 1) (e.rule.yield.length - 1)) (breaksFrom p.notesAt (e.index + 1) 1)) := by
  have hentry : (p.withNewline .unix).entryText e = p.entryTextWith e ((p.withNewline .unix).bodyText e) := rfl
  have hignores : (p.withNewline .unix).ignores e = p.ignores e := rfl
  rw [hentry, entryTextWith, entryTextWith, List.append_cancel_left_eq, List.append_cancel_right_eq,
    List.append_cancel_left_eq, measuredText, bodyText, hignores]
  cases hi : p.ignores e with
  | true => simp [withNewline]
  | false =>
      rw [if_neg Bool.false_ne_true, if_neg Bool.false_ne_true, ruleText_unix,
        Parts.text_glue_eq_iff (three_le_length_head _ e)]
      simp

theorem length_entryText_le {e : Entry} :
    ((p.withNewline .unix).entryText e).length ≤ (p.entryTextWith e (p.measuredText e)).length := by
  have hbody : ((p.withNewline .unix).bodyText e).length ≤ (p.measuredText e).length := by
    have hignores : (p.withNewline .unix).ignores e = p.ignores e := rfl
    rw [measuredText, bodyText, hignores]
    cases hi : p.ignores e with
    | true => exact Nat.le_refl _
    | false =>
        rw [if_neg Bool.false_ne_true, if_neg Bool.false_ne_true, ruleText_unix]
        exact Parts.length_text_glue_le
  have hentry : (p.withNewline .unix).entryText e = p.entryTextWith e ((p.withNewline .unix).bodyText e) := rfl
  rw [hentry, entryTextWith, entryTextWith]
  simp only [List.length_append]
  omega

end Page

theorem exists_widened_flatMap {α : Type} {f g : α → Text} {xs : List α}
    (h : ∀ x ∈ xs, ∃ k, Widened (f x) (g x) k) : ∃ k, Widened (xs.flatMap f) (xs.flatMap g) k := by
  induction xs with
  | nil => exact ⟨0, .nil⟩
  | cons x xs ih =>
      obtain ⟨⟨k, hx⟩, hxs⟩ := List.forall_mem_cons.1 h
      obtain ⟨k', hall⟩ := ih hxs
      exact ⟨k + k', hx.append hall⟩

end Layout

namespace Lexeme

theorem lacks_of_notMem {l : Lexeme} {k : Kind} {c : Char} (hk : l.kind? = some k) (h : c ∉ l.spelling) :
    k.Lacks c := by
  intro t ht hc
  cases l with
  | gap | comment => cases hk
  | terminal | special =>
      cases hk
      cases ht
      exact h (by simp [spelling, hc])
  | identifier | integer | mark =>
      cases hk
      cases ht

end Lexeme

variable {config : Config} {source : Text} {d : Document} {ps : List Passage} {trail : List Lexeme} {c : Char}

theorem Passage.lacks {q : Passage} (h : c ∉ spell q.body) : ∀ k ∈ q.kinds, k.Lacks c := by
  intro k hk
  rw [q.kinds_eq] at hk
  obtain ⟨l, hl, hk⟩ := List.mem_filterMap.1 hk
  exact lacks_of_notMem hk fun hc => h (List.mem_flatMap.2 ⟨l, hl, hc⟩)

namespace Document

def commentBreaks (d : Document) (i n : Nat) : Nat := breaksFrom (fun j => d.commentTexts[j]?.getD []) i n

theorem Printed.lacks (hd : Printed source d ps trail) (h : c ∉ source) :
    ∀ r ∈ d.grammar.rules, (∀ k ∈ r.yield, k.Lacks c) ∧ c ∉ r.place.slice source := by
  intro r hr
  have hall := List.Forall₂.mp (fun r q hk hs => And.intro hk hs) hd.laid.kinds hd.slices
  obtain ⟨q, hq, hk, hs⟩ := exists_mem_of_forall₂ hall hr
  have hbody : c ∉ spell q.body := by
    intro hc
    obtain ⟨l, hl, hc⟩ := List.mem_flatMap.1 hc
    apply h
    rw [hd.source_eq]
    refine List.mem_flatMap.2 ⟨l, List.mem_append_left _ (List.mem_flatMap.2 ⟨q, hq, ?_⟩), hc⟩
    exact List.mem_append_right _ hl
  refine ⟨hk ▸ q.lacks hbody, ?_⟩
  rwa [Span.slice, hs]

end Document

namespace Layout

theorem notMem_notesAt (config : Config) (hd : Document.Printed source d ps trail) (h : c ∉ source) :
    ∀ i, ∀ t ∈ (Page.ofDocument config source d).notesAt i, c ∉ t := by
  intro i t ht hc
  apply h
  rw [hd.source_eq]
  exact (infix_of_mem_notes (Page.mem_notes_of_mem_notesAt hd ht)).mem hc

/-- Two kinds of breaks give the same lines unless a break inside a comment
counts: as a character too many for the width of a line, or as one too many in
front of its equals sign. -/
theorem unixBreaks_format_eq_iff (config : Config) (hr : '\r' ∉ source) (h : Document.ofSource source = .ok d) :
    let p := Page.ofDocument { config with newline := .unix } source d
    Text.unixBreaks (format { config with newline := .windows } source d) =
        format { config with newline := .unix } source d ↔
      ∀ e ∈ entries config.align source d.grammar.rules, p.ignores e = false →
        (p.parts e).Unmoved config.lineWidth (d.commentBreaks (e.index + 1) (e.rule.yield.length - 1))
          (d.commentBreaks (e.index + 1) 1) := by
  obtain ⟨ps, trail, hd⟩ := Document.printed_of_ofSource h
  let p := Page.ofDocument config source d
  have hn : ∀ i, ∀ t ∈ p.notesAt i, '\r' ∉ t := notMem_notesAt config hd hr
  have hnotes : p.notesAt = fun j => d.commentTexts[j]?.getD [] := funext (Page.notesAt_eq config source d)
  have hlines : ∀ e ∈ entries config.align source d.grammar.rules,
      ∃ k, Widened (p.entryTextWith e (p.measuredText e)) ((p.withNewline .windows).entryText e) k := by
    intro e he
    have hrule : e.rule ∈ d.grammar.rules := rule_mem_of_mem_entries he
    obtain ⟨hk, hs⟩ := hd.lacks hr _ hrule
    exact Page.exists_widened_entryText hn (hd.laid.legal _ hrule) hk hs
  obtain ⟨k, hlines⟩ := exists_widened_flatMap hlines
  have hall := (hlines.append (Page.widened_noteLines hn (tokenCount d.grammar.rules))).unixBreaks_eq
  have hpage (nl : Newline) : Page.ofDocument { config with newline := nl } source d = p.withNewline nl := rfl
  rw [format_eq_flatMap, format_eq_flatMap, hpage, hpage, hall, List.append_cancel_right_eq,
    flatMap_eq_iff_of_length_le fun e _ => Page.length_entryText_le]
  refine forall₂_congr fun e _ => ?_
  rw [Page.entryTextWith_eq_iff, hnotes]
  rfl

theorem unixBreaks_format_of_inner_comments :
    let source : Text := "long = (*a\nb*) 'x' | 'y' | 'z' ;\nr = 'x' | 'y' (*c\nd*) ;".toList
    '\r' ∉ source ∧ ∃ d, Document.ofSource source = .ok d ∧
      format { lineWidth := 28, newline := .windows } source d =
        "long = (*a\r\nb*) 'x'\r\n     | 'y'\r\n     | 'z' ;\r\nr    = 'x' | 'y' (*c\r\nd*) ;\r\n".toList ∧
      Text.unixBreaks (format { lineWidth := 28, newline := .windows } source d) =
        format { lineWidth := 28, newline := .unix } source d := by
  intro source
  have hr : '\r' ∉ source := by decide +kernel
  obtain ⟨d, h, hd⟩ : ∃ d, Document.ofSource source = .ok d ∧
      (format { lineWidth := 28, newline := .windows } source d,
        decide (∀ e ∈ entries true source d.grammar.rules,
          ((Page.ofDocument { lineWidth := 28, newline := .unix } source d).parts e).Unmoved 28
            (d.commentBreaks (e.index + 1) (e.rule.yield.length - 1)) (d.commentBreaks (e.index + 1) 1))) =
      ("long = (*a\r\nb*) 'x'\r\n     | 'y'\r\n     | 'z' ;\r\nr    = 'x' | 'y' (*c\r\nd*) ;\r\n".toList, true) :=
    exists_of_map_eq_ok (by decide +kernel)
  obtain ⟨hout, hall⟩ := Prod.mk.inj hd
  refine ⟨hr, d, h, hout, (unixBreaks_format_eq_iff { lineWidth := 28 } hr h).2 fun e he _ => ?_⟩
  exact of_decide_eq_true hall e he

/-- The carriage return inside the comment breaks a line that fits. -/
theorem unixBreaks_format_ne :
    let source : Text := "r = (*a\nb*) 'x' | 'y' ;".toList
    '\r' ∉ source ∧ ∃ d, Document.ofSource source = .ok d ∧
      format { lineWidth := 23, newline := .unix } source d = "r = (*a\nb*) 'x' | 'y' ;\n".toList ∧
      format { lineWidth := 23, newline := .windows } source d = "r = (*a\r\nb*) 'x'\r\n  | 'y' ;\r\n".toList ∧
      Text.unixBreaks (format { lineWidth := 23, newline := .windows } source d) ≠
        format { lineWidth := 23, newline := .unix } source d := by
  intro source
  obtain ⟨d, h, hd⟩ : ∃ d, Document.ofSource source = .ok d ∧
      (format { lineWidth := 23, newline := .unix } source d,
        format { lineWidth := 23, newline := .windows } source d) =
      ("r = (*a\nb*) 'x' | 'y' ;\n".toList, "r = (*a\r\nb*) 'x'\r\n  | 'y' ;\r\n".toList) :=
    exists_of_map_eq_ok (by decide +kernel)
  obtain ⟨hunix, hwindows⟩ := Prod.mk.inj hd
  refine ⟨by decide +kernel, d, h, hunix, hwindows, ?_⟩
  rw [hunix, hwindows]
  decide +kernel

end Layout

end Ebnf
