import Ebnf.Proofs.Layout.TokenLine
import Ebnf.Proofs.Token.Roundtrip

namespace Ebnf.Layout

/-- What happens while a document is written, and where the counter of tokens
stands then. -/
inductive Event
  | enter (r : Rule Span) (index : Nat)
  | name (w : Text) (index : Nat)
  | word (w : Text) (index : Nat)
  | copy (r : Rule Span) (index count : Nat)
  | leave (r : Rule Span) (index : Nat)
  | trail (index : Nat)
deriving DecidableEq, Repr

structure Pen where
  next : Nat
  past : List Event
deriving DecidableEq, Repr

/-- Writing that finds comments and tokens by the counter alone. It breaks off
if the tokens are cut behind their end. -/
abbrev Scribe := StateT Pen Option

namespace Scribe

/-- The counter goes on by `n`. What happens sees it before, and so does the caller. -/
def record (n : Nat) (e : Nat → Event) : Scribe Nat :=
  fun s => some (s.next, ⟨s.next + n, s.past ++ [e s.next]⟩)

/-- From `i` on, whatever was before: the result is `a`, the counter goes on by
`n`, and these events happen. -/
def Writes {α : Type} (m : Scribe α) (i : Nat) (a : α) (n : Nat) (es : List Event) : Prop :=
  ∀ past, m.run ⟨i, past⟩ = some (a, ⟨i + n, past ++ es⟩)

variable {α β : Type} {m : Scribe α} {i n k : Nat} {es fs : List Event} {a : α} {b : β}

theorem writes_pure (i : Nat) (a : α) : Writes (pure a) i a 0 [] := by
  intro past
  rw [List.append_nil]
  rfl

theorem writes_record (i n : Nat) (e : Nat → Event) : Writes (record n e) i i n [e i] := fun _ => rfl

theorem Writes.bind {f : α → Scribe β} (hm : Writes m i a n es) (hf : Writes (f a) (i + n) b k fs) :
    Writes (m >>= f) i b (n + k) (es ++ fs) := by
  intro past
  rw [StateT.run_bind, hm past]
  show (f a).run ⟨i + n, past ++ es⟩ = _
  rw [hf, Nat.add_assoc, List.append_assoc]

theorem writes_record_bind {f : Nat → Scribe β} {e : Nat → Event} (hf : Writes (f i) (i + k) b n es) :
    Writes (record k e >>= f) i b (n + k) (e i :: es) := by
  rw [Nat.add_comm n]
  exact (writes_record i k e).bind hf

theorem Writes.bind_pure (hm : Writes m i a n es) (f : α → β) : Writes (do return f (← m)) i (f a) n es := by
  have h : Writes (do return f (← m)) i (f a) (n + 0) (es ++ []) := hm.bind (writes_pure _ _)
  rwa [Nat.add_zero, List.append_nil] at h

theorem Writes.map (f : α → β) (hm : Writes m i a n es) : Writes (f <$> m) i (f a) n es := by
  intro past
  rw [StateT.run_map, hm past]
  rfl

end Scribe

open Scribe Kind

def fresh (out : Text) : Bool := out.getLast?.all (· = ' ')

namespace Page

def noted (p : Page) (out : Text) (i : Nat) : Text :=
  (p.notesAt i).foldl (fun out c => (if fresh out then out else out ++ [' ']) ++ commentText p.newline c ++ [' ']) out

def emit (p : Page) (out w : Text) : Scribe Text := do
  let i ← record 1 (.word w)
  return p.noted out i ++ w

def emitExpr (p : Page) : Expr Span → Text → Scribe Text
  | .atom a _, out => p.emit out (atomText p.config.quotes a)
  | .binary c l r _, out => do
      let out ← p.emitExpr l out
      let out ← p.emit (if c = .concatenation then out else out ++ [' ']) [(Operator.joining c).symbol]
      p.emitExpr r (out ++ [' '])
  | .without l _, out => do
      let out ← p.emitExpr l out
      p.emit (out ++ [' ']) [(Operator.joining .exception).symbol]
  | .counted n _ e _, out => do
      let out ← p.emit out (Decimal.digits n)
      let out ← p.emit (out ++ [' ']) [Operator.counting.symbol]
      p.emitExpr e (out ++ [' '])
  | .group b e _, out => do
      let out ← p.emit out [b.opener]
      let out ← p.emitExpr e (out ++ [' '])
      p.emit (out ++ [' ']) [b.closer]
  | .empty b _, out => do
      let out ← p.emit out [b.opener]
      p.emit out [b.closer]

def emitAlternative (p : Page) (e : Expr Span) : Scribe (Text × Text) := do
  let separator ← p.emit [] [(Operator.joining .alternation).symbol]
  let part ← p.emitExpr e []
  return (separator, part)

def emitParts (p : Page) (w : Nat) (r : Rule Span) : Scribe Parts := do
  let _ ← record 1 (.name r.name)
  let head ← p.emit (r.name.padRight w ++ [' ']) ['=']
  match r.body.elim [] alternatives with
  | [] =>
      let last ← p.emit [] [';']
      return ⟨head ++ [' '], [], [], last⟩
  | a :: as =>
      let first ← p.emitExpr a []
      let further ← as.mapM p.emitAlternative
      let last ← p.emit [] [';']
      return ⟨head ++ [' '], first, further, ' ' :: last⟩

def fit (p : Page) (parts : Parts) : Text :=
  if parts.further ≠ [] ∧ p.config.lineWidth < (parts.text [' ']).length then
    parts.text (p.newline ++ Text.spaces (parts.head.length - 2))
  else parts.text [' ']

/-- The bytes of a rule. Its tokens are found by the span and passed over. -/
def copyRule (p : Page) (d : Document) (r : Rule Span) : Scribe Text := do
  let s ← get
  if s.next ≤ d.tokens.length then
    let count := (d.passedOver s.next r.place).length
    let _ ← record count (.copy r · count)
    return r.place.slice p.source
  else failure

def emitRule (p : Page) (d : Document) (w : Nat) (r : Rule Span) : Scribe Text := do
  let i ← record 0 (.enter r)
  let body ← (if (p.notesAt i).any (Text.occursIn p.config.ignore) then p.copyRule d r else p.fit <$> p.emitParts w r)
  let _ ← record 0 (.leave r)
  return p.noteLines i ++ body ++ p.newline

def emitBlock (p : Page) (d : Document) (rules : List (Rule Span)) : Scribe Text :=
  List.flatten <$> rules.mapM (p.emitRule d (nameWidth p.config.align rules))

def emitDocument (p : Page) (d : Document) : Scribe Text := do
  let blocks ← (blocks p.source d.grammar.rules).mapM (p.emitBlock d)
  let i ← record 0 .trail
  return p.newline.intercalate blocks ++ p.noteLines i

end Page

section

variable {p : Page} {out w : Text} {i : Nat} {ps qs : List Piece} {ks ls : List Kind}

theorem fresh_append_of_not_fresh (out : Text) (h : fresh w = false) : fresh (out ++ w) = false := by
  cases hw : w.getLast? with
  | none => simp [fresh, hw] at h
  | some c => simpa [fresh, hw] using h

theorem fresh_space (out : Text) : fresh (out ++ [' ']) = true := by simp [fresh]

def wordEvents (style : QuoteStyle) : Nat → List Kind → List Event
  | _, [] => []
  | i, k :: ks => .word (k.written style) i :: wordEvents style (i + 1) ks

theorem wordEvents_append (style : QuoteStyle) (i : Nat) (ks ls : List Kind) :
    wordEvents style i (ks ++ ls) = wordEvents style i ks ++ wordEvents style (i + ks.length) ls := by
  induction ks generalizing i with
  | nil => rfl
  | cons k ks ih => simp [wordEvents, ih, Nat.add_assoc, Nat.add_comm 1]

namespace Page

def inked (p : Page) : Text → Nat → List Piece → Text
  | out, _, [] => out
  | out, i, .space :: ps => p.inked (out ++ [' ']) i ps
  | out, i, .word w :: ps => p.inked (p.noted out i ++ w) (i + 1) ps

def wordCount : List Piece → Nat
  | [] => 0
  | .space :: ps => wordCount ps
  | .word _ :: ps => wordCount ps + 1

theorem wordCount_append (ps qs : List Piece) : wordCount (ps ++ qs) = wordCount ps + wordCount qs := by
  induction ps with
  | nil => simp [wordCount]
  | cons q ps ih => cases q <;> simp [wordCount, ih, Nat.add_right_comm]

theorem inked_append (p : Page) (out : Text) (i : Nat) (ps qs : List Piece) :
    p.inked out i (ps ++ qs) = p.inked (p.inked out i ps) (i + wordCount ps) qs := by
  induction ps generalizing out i with
  | nil => rfl
  | cons q ps ih =>
      cases q with
      | space => exact ih (out ++ [' ']) i
      | word w => rw [List.cons_append, inked, inked, ih, wordCount, Nat.add_assoc, Nat.add_comm 1]

theorem wordCount_gapBefore (c : Connective) : wordCount (gapBefore c) = 0 := by
  cases c <;> rfl

theorem wordCount_pieces {α : Type} (style : QuoteStyle) (e : Expr α) :
    wordCount (pieces style e) = e.yield.length := by
  induction e with
  | atom | empty => rfl
  | binary c l r _ ihl ihr =>
      simp [pieces, operator, Expr.yield, wordCount, wordCount_append, wordCount_gapBefore, ihl, ihr]
  | without l _ ih => simp [pieces, operator, Expr.yield, wordCount, wordCount_append, ih]
  | counted n _ e _ ih => simp [pieces, operator, Expr.yield, wordCount, ih]
  | group b e _ ih => simp [pieces, Expr.yield, wordCount, wordCount_append, ih]

theorem inked_gapBefore (p : Page) (out : Text) (i : Nat) (c : Connective) :
    p.inked out i (gapBefore c) = if c = .concatenation then out else out ++ [' '] := by
  cases c <;> rfl

theorem writes_emit (p : Page) (out w : Text) (i : Nat) :
    Writes (p.emit out w) i (p.noted out i ++ w) 1 [.word w i] := fun _ => rfl

theorem writes_emit_bind {α : Type} {f : Text → Scribe α} {a : α} {n : Nat} {es : List Event}
    (h : Writes (f (p.noted out i ++ w)) (i + 1) a n es) :
    Writes (p.emit out w >>= f) i a (n + 1) (.word w i :: es) := by
  rw [Nat.add_comm n]
  exact (p.writes_emit out w i).bind h

/-- An expression is written piece by piece, and its tokens are counted one by one. -/
theorem writes_emitExpr (p : Page) (e : Expr Span) (out : Text) (i : Nat) :
    Writes (p.emitExpr e out) i (p.inked out i (pieces p.config.quotes e)) e.yield.length
      (wordEvents p.config.quotes i e.yield) := by
  induction e generalizing out i with
  | atom a q =>
      have hw : a.kind.written p.config.quotes = atomText p.config.quotes a := by cases a <;> rfl
      rw [Expr.yield, wordEvents, hw]
      exact p.writes_emit out _ i
  | binary c l r q ihl ihr =>
      rw [pieces, inked_append, inked_append, inked_gapBefore, wordCount_append, wordCount_gapBefore,
        wordCount_pieces, Nat.add_zero, Expr.yield, wordEvents_append, List.length_append]
      exact (ihl out i).bind (writes_emit_bind (ihr _ _))
  | without l q ih =>
      rw [pieces, inked_append, wordCount_pieces, Expr.yield, wordEvents_append, List.length_append]
      exact (ih out i).bind (p.writes_emit _ _ _)
  | counted n q e _ ih => exact writes_emit_bind (writes_emit_bind (ih _ _))
  | group b e q ih =>
      rw [pieces, List.cons_append, List.cons_append, inked, inked, inked_append, wordCount_pieces, Expr.yield,
        List.cons_append, wordEvents, wordEvents_append, List.length_cons, List.length_append]
      exact writes_emit_bind ((ih _ _).bind (p.writes_emit _ _ _))
  | empty b q => exact writes_emit_bind (p.writes_emit _ _ _)

theorem not_fresh_of_proper {l : Lexeme} (h : l.Proper) (hl : ∀ run, l ≠ .gap run) : fresh l.spelling = false := by
  rw [fresh]
  cases hc : l.spelling.getLast? with
  | none => exact absurd (List.getLast?_eq_none_iff.1 hc) h.spelling_ne_nil
  | some c =>
      have hgap : Lexeme.isGap c = false := h.isGap_last hl c hc
      apply decide_eq_false
      rintro rfl
      cases hgap

/-- No word is empty or has a space at its end. -/
def Tight (ps : List Piece) : Prop := ∀ w, .word w ∈ ps → fresh w = false

theorem tight_of_spells {before : Bool} (h : Spells before ps ks) : Tight ps := by
  induction h with
  | nil => simp [Tight]
  | space _ ih => simpa [Tight] using ih
  | word l hp hk _ _ ih =>
      have hl : fresh l.spelling = false := not_fresh_of_proper hp (by rintro run rfl; cases hk)
      intro w hw
      rcases List.mem_cons.1 hw with hw | hw
      · rw [Piece.word.inj hw]
        exact hl
      · exact ih w hw

theorem noted_eq (p : Page) (out : Text) (i : Nat) :
    p.noted out i = out ++ commentsText p.newline (fresh out) (p.notesAt i) := by
  rw [noted]
  induction p.notesAt i generalizing out with
  | nil => simp [commentsText]
  | cons c cs ih =>
      rw [List.foldl_cons, ih, fresh_space, commentsText]
      split <;> simp

/-- The text is that of the layout, which tells words from spaces by the pieces. -/
theorem inked_eq_append (hps : Tight ps) (out : Text) (i : Nat) :
    p.inked out i ps = out ++ Layout.write p.newline p.notesAt (fresh out) i ps := by
  induction ps generalizing out i with
  | nil => simp [inked, Layout.write]
  | cons q ps ih =>
      have hrest : Tight ps := fun w hw => hps w (List.mem_cons_of_mem q hw)
      cases q with
      | space => rw [inked, ih hrest, fresh_space, Layout.write, List.append_assoc]; rfl
      | word w =>
          have hw : fresh w = false := hps w List.mem_cons_self
          rw [inked, ih hrest, fresh_append_of_not_fresh _ hw, noted_eq, Layout.write]
          simp only [List.append_assoc]

theorem inked_nil (hps : Tight ps) (i : Nat) : p.inked [] i ps = p.write i ps := inked_eq_append hps [] i

theorem tight_word (h : fresh w = false) : Tight [.word w] := by simpa [Tight] using h

theorem emitted_word (h : fresh w = false) (i : Nat) : p.noted [] i ++ w = p.write i [.word w] :=
  inked_nil (tight_word h) i

theorem tight_pieces {e : Expr Span} (style : QuoteStyle) (h : ∀ k ∈ e.yield, k.Legal) : Tight (pieces style e) :=
  tight_of_spells (spells_pieces style h)

theorem writes_emitAlternative {e : Expr Span} (h : ∀ k ∈ e.yield, k.Legal) (i : Nat) :
    Writes (p.emitAlternative e) i
      (p.write i [operator (.joining .alternation)], p.write (i + 1) (pieces p.config.quotes e))
      (bar :: e.yield).length (wordEvents p.config.quotes i (bar :: e.yield)) := by
  have hbar : p.noted [] i ++ ['|'] = p.write i [operator (.joining .alternation)] := emitted_word rfl i
  have hexpr := p.writes_emitExpr e [] (i + 1)
  rw [inked_nil (tight_pieces _ h)] at hexpr
  rw [← hbar]
  exact writes_emit_bind (hexpr.bind_pure _)

theorem writes_emitAlternatives {as : List (Expr Span)} (h : ∀ a ∈ as, ∀ k ∈ a.yield, k.Legal) (i : Nat) :
    Writes (as.mapM p.emitAlternative) i (p.further i as) (as.flatMap fun a => bar :: a.yield).length
      (wordEvents p.config.quotes i (as.flatMap fun a => bar :: a.yield)) := by
  induction as generalizing i with
  | nil => exact writes_pure i []
  | cons a as ih =>
      obtain ⟨ha, has⟩ := List.forall_mem_cons.1 h
      have hi : i + (bar :: a.yield).length = i + 1 + a.yield.length := by
        rw [List.length_cons, Nat.add_assoc, Nat.add_comm 1]
      rw [List.mapM_cons, further, List.flatMap_cons, wordEvents_append, List.length_append, hi]
      exact (writes_emitAlternative ha i).bind (hi ▸ (ih has _).bind_pure _)

theorem emitted_equals (t : Text) (i : Nat) :
    p.noted (t ++ [' ']) i ++ ['='] ++ [' '] = t ++ ' ' :: p.write i [.word ['='], .space] := by
  have htight : Tight [.word ['='], .space] := by simp [Tight, fresh]
  have h := inked_eq_append (p := p) htight (t ++ [' ']) i
  rw [fresh_space, List.append_assoc t] at h
  exact h

theorem emitted_semicolon (i : Nat) : p.noted [] i ++ [';'] = p.write i [.word [';']] := emitted_word rfl i

def ruleEvents (style : QuoteStyle) (i : Nat) (r : Rule Span) : List Event :=
  .name r.name i :: wordEvents style (i + 1) r.yield.tail

theorem writes_emitParts {e : Entry} (h : ∀ k ∈ e.rule.yield, k.Legal) :
    Writes (p.emitParts e.width e.rule) e.index (p.parts e) e.rule.yield.length
      (ruleEvents p.config.quotes e.index e.rule) := by
  obtain ⟨i, w, opens, name, np, body, place⟩ := e
  cases body with
  | none =>
      have hparts : p.parts ⟨i, w, opens, name, np, none, place⟩ =
          ⟨p.noted (name.padRight w ++ [' ']) (i + 1) ++ ['='] ++ [' '], [], [], p.noted [] (i + 2) ++ [';']⟩ := by
        rw [emitted_equals, emitted_semicolon]
        rfl
      rw [hparts]
      exact writes_record_bind (writes_emit_bind ((p.writes_emit _ _ _).bind_pure _))
  | some x =>
      have hx : ∀ k ∈ x.yield, k.Legal := fun k hk => h k (by simp [Rule.yield, bodyYield, hk])
      obtain ⟨a, as, ha, -⟩ := exists_alternatives x
      obtain ⟨hla, hlas⟩ := forall_alternatives hx ha
      have hy := yield_of_alternatives ha
      have hparts : p.parts ⟨i, w, opens, name, np, some x, place⟩ =
          ⟨p.noted (name.padRight w ++ [' ']) (i + 1) ++ ['='] ++ [' '], p.inked [] (i + 2) (pieces p.config.quotes a),
            p.further (i + 2 + a.yield.length) as,
            ' ' :: (p.noted [] (i + 2 + a.yield.length + (as.flatMap fun b => bar :: b.yield).length) ++ [';'])⟩ := by
        rw [emitted_equals, inked_nil (tight_pieces _ hla), emitted_semicolon, Nat.add_assoc (i + 2),
          ← List.length_append, ← hy]
        simp only [parts, Option.elim_some, ha, bodyYield]
      have hemit : p.emitParts w ⟨name, np, some x, place⟩ = do
          let _ ← record 1 (.name name)
          let head ← p.emit (name.padRight w ++ [' ']) ['=']
          let first ← p.emitExpr a []
          let further ← as.mapM p.emitAlternative
          let last ← p.emit [] [';']
          return ⟨head ++ [' '], first, further, ' ' :: last⟩ := by
        simp only [emitParts, Option.elim_some, ha]
      have hyield : Rule.yield ⟨name, np, some x, place⟩ = .identifier name :: .mark .equals ::
          (a.yield ++ ((as.flatMap fun b => bar :: b.yield) ++ [.mark .semicolon])) := by
        simp [Rule.yield, bodyYield, hy]
      rw [hparts, hemit, ruleEvents, hyield]
      refine writes_record_bind (writes_emit_bind ?_)
      rw [wordEvents_append, wordEvents_append, List.length_append, List.length_append]
      exact (p.writes_emitExpr a [] _).bind ((writes_emitAlternatives hlas _).bind
        ((p.writes_emit _ _ _).bind_pure _))

theorem writes_copyRule {d : Document} {r : Rule Span} {i : Nat} (hi : i ≤ d.tokens.length)
    (hr : (d.passedOver i r.place).length = r.yield.length) :
    Writes (p.copyRule d r) i (r.place.slice p.source) r.yield.length [.copy r i r.yield.length] := by
  intro past
  have hrun : (p.copyRule d r).run ⟨i, past⟩ = (if i ≤ d.tokens.length then
      (record (d.passedOver i r.place).length (.copy r · (d.passedOver i r.place).length) >>= fun _ =>
        return r.place.slice p.source) else failure : Scribe Text).run ⟨i, past⟩ := rfl
  rw [hrun, if_pos hi, hr]
  rfl

def entryEvents (p : Page) (e : Entry) : List Event :=
  .enter e.rule e.index ::
    ((if p.ignores e then [.copy e.rule e.index e.rule.yield.length]
      else ruleEvents p.config.quotes e.index e.rule) ++ [.leave e.rule (e.index + e.rule.yield.length)])

structure Fits (d : Document) (e : Entry) : Prop where
  legal : ∀ k ∈ e.rule.yield, k.Legal
  inside : e.index ≤ d.tokens.length
  passes : (d.passedOver e.index e.rule.place).length = e.rule.yield.length

theorem writes_emitRule {d : Document} {e : Entry} (h : Fits d e) :
    Writes (p.emitRule d e.width e.rule) e.index (p.segment e) e.rule.yield.length (p.entryEvents e) := by
  have hbody : Writes (if (p.notesAt e.index).any (Text.occursIn p.config.ignore) then p.copyRule d e.rule
      else p.fit <$> p.emitParts e.width e.rule) e.index
      (if p.ignores e then e.rule.place.slice p.source else p.ruleText e) e.rule.yield.length
      (if p.ignores e then [.copy e.rule e.index e.rule.yield.length]
        else ruleEvents p.config.quotes e.index e.rule) := by
    rw [ignores]
    split
    · exact writes_copyRule h.inside h.passes
    · exact (writes_emitParts h.legal).map p.fit
  have hrule : Writes (p.emitRule d e.width e.rule) e.index (p.segment e) (0 + (e.rule.yield.length + 0))
      (p.entryEvents e) :=
    (writes_record e.index 0 (.enter e.rule)).bind (hbody.bind ((writes_record _ 0 (.leave e.rule)).bind_pure _))
  rwa [Nat.zero_add] at hrule

theorem writes_emitRules {d : Document} {w : Nat} {opens : Bool} {i : Nat} {rs : List (Rule Span)}
    (h : ∀ e ∈ blockEntries w opens i rs, Fits d e) :
    Writes (rs.mapM (p.emitRule d w)) i ((blockEntries w opens i rs).map p.segment) (tokenCount rs)
      ((blockEntries w opens i rs).flatMap p.entryEvents) := by
  induction rs generalizing opens i with
  | nil => exact writes_pure i []
  | cons r rs ih =>
      obtain ⟨hr, hrs⟩ := List.forall_mem_cons.1 h
      rw [List.mapM_cons]
      exact (writes_emitRule hr).bind ((ih hrs).bind_pure _)

theorem writes_emitBlocks {d : Document} {opens : Bool} {i : Nat} {bs : List (List (Rule Span))}
    (h : ∀ e ∈ entriesFrom p.config.align opens i bs, Fits d e) :
    Writes (bs.mapM (p.emitBlock d)) i ((entryBlocksFrom p.config.align opens i bs).map (·.flatMap p.segment))
      (tokenCount bs.flatten) ((entriesFrom p.config.align opens i bs).flatMap p.entryEvents) := by
  induction bs generalizing opens i with
  | nil => exact writes_pure i []
  | cons b bs ih =>
      obtain ⟨hb, hbs⟩ := List.forall_mem_append.1 h
      rw [List.mapM_cons, List.flatten_cons, tokenCount_append, entriesFrom, List.flatMap_append]
      exact ((writes_emitRules hb).map List.flatten).bind ((ih hbs).bind_pure _)

/-- Writing by the counter never breaks off, and gives the text of the layout. -/
theorem writes_emitDocument {d : Document}
    (h : ∀ e ∈ entries p.config.align p.source d.grammar.rules, Fits d e) :
    Writes (p.emitDocument d) 0 (p.text d.grammar.rules) (tokenCount d.grammar.rules)
      ((entries p.config.align p.source d.grammar.rules).flatMap p.entryEvents ++
        [.trail (tokenCount d.grammar.rules)]) := by
  have hblocks := writes_emitBlocks h
  rw [flatten_blocks, ← entryBlocks, ← entries] at hblocks
  have hall : Writes (p.emitDocument d) 0
      (p.newline.intercalate ((entryBlocks p.config.align p.source d.grammar.rules).map (·.flatMap p.segment)) ++
        p.noteLines (0 + tokenCount d.grammar.rules)) (tokenCount d.grammar.rules + 0)
      ((entries p.config.align p.source d.grammar.rules).flatMap p.entryEvents ++
        [.trail (0 + tokenCount d.grammar.rules)]) :=
    hblocks.bind ((writes_record _ 0 .trail).bind_pure _)
  rwa [← flatMap_entries, Nat.zero_add] at hall

end Page

end

end Ebnf.Layout
