import Ebnf.Layout.Page
import Ebnf.Proofs.Layout.Piece

namespace Ebnf

open Lexeme

namespace Layout

theorem Padding.apart {nl : Newline} {run : Text} (h : Padding nl run) (u : Text) : Text.Apart (run ++ u) := by
  obtain ⟨hne, hg⟩ := h.proper
  obtain ⟨c, s, rfl⟩ := List.exists_cons_of_ne_nil hne
  rintro d ⟨⟩
  rcases isGap_iff.1 (hg c List.mem_cons_self) with rfl | rfl | rfl | rfl <;> decide

theorem exists_alternatives {α : Type} (e : Expr α) : ∃ a as, alternatives e = a :: as ∧
    ∀ f, (e.mapAtom f).yield = (a.mapAtom f).yield ++
      as.flatMap fun b => .mark (.operator (.joining .alternation)) :: (b.mapAtom f).yield := by
  induction e with
  | binary c l r p ihl _ =>
      cases c with
      | alternation =>
          obtain ⟨a, as, ha, hf⟩ := ihl
          exact ⟨a, as ++ [r], by rw [alternatives, ha, List.cons_append],
            fun f => by simp [Expr.mapAtom, Expr.yield, hf]⟩
      | concatenation | exception => exact ⟨_, [], rfl, fun f => by simp⟩
  | _ => exact ⟨_, [], rfl, fun f => by simp⟩

theorem mem_yield_of_mem_alternatives {α : Type} {e a : Expr α} {k : Kind} (ha : a ∈ alternatives e)
    (hk : k ∈ a.yield) : k ∈ e.yield := by
  induction e with
  | binary c l r p ihl _ =>
      cases c with
      | alternation =>
          rcases List.mem_append.1 ha with ha | ha
          · exact List.mem_append_left _ (ihl ha)
          · rw [List.mem_singleton.1 ha] at hk
            exact List.mem_append_right _ (List.mem_cons_of_mem _ hk)
      | concatenation | exception =>
          rw [List.mem_singleton.1 ha] at hk
          exact hk
  | _ =>
      rw [List.mem_singleton.1 ha] at hk
      exact hk

theorem forall_alternatives {α : Type} {e a : Expr α} {as : List (Expr α)} {P : Kind → Prop}
    (h : ∀ k ∈ e.yield, P k) (ha : alternatives e = a :: as) :
    (∀ k ∈ a.yield, P k) ∧ ∀ b ∈ as, ∀ k ∈ b.yield, P k :=
  List.forall_mem_cons.1 fun _ hb k hk => h k (mem_yield_of_mem_alternatives (ha ▸ hb) hk)

theorem yield_of_alternatives {α : Type} {e a : Expr α} {as : List (Expr α)} (ha : alternatives e = a :: as) :
    e.yield = a.yield ++ as.flatMap fun b => .mark (.operator (.joining .alternation)) :: b.yield := by
  obtain ⟨a', as', ha', hy⟩ := exists_alternatives e
  obtain ⟨rfl, rfl⟩ := List.cons.inj (ha.symm.trans ha')
  simpa only [Expr.mapAtom_id] using hy fun c => c

theorem exists_passage {lead : List Lexeme} (hlead : ∀ l ∈ lead, l.IsTrivia) {name : Text}
    (hname : (Lexeme.identifier name).Proper) {nl : Newline} {t : Text} {ts : List (List Text × Kind)}
    (ht : Carries nl t ts) (ha : ∀ u, Text.Apart (t ++ u)) {cs : List Text}
    (hcs : ∀ c ∈ cs, (Lexeme.comment c).Proper) :
    ∃ q : Passage, q.lead = lead ∧ spell q.body = name ++ (t ++ (commentsText nl.text true cs ++ [';'])) ∧
      tokens [] q.body = ([], .identifier name) :: (ts ++ [(cs.map (normalText nl), .mark .semicolon)]) ∧
      ∀ l ∈ q.body, Padded nl l := by
  obtain ⟨ls, rfl, rfl, hw, hpad, hl⟩ := ht
  obtain ⟨cl, hs, htr, hn⟩ := exists_commentsText nl hcs true
  have hbehind (u : Text) : Text.Apart (spell (cl ++ [.mark .semicolon]) ++ u) := by
    rw [spell_append, hs]
    cases cs with
    | nil =>
        rintro c ⟨⟩
        decide
    | cons c cs =>
        rintro c ⟨⟩
        decide
  have hlegible (u : Text) : Legible (.identifier name :: (ls ++ (cl ++ [.mark .semicolon]))) u := by
    refine ⟨hname, .inr ?_, legible_append.2 ⟨hl _ (hbehind u), legible_append.2
      ⟨legible_of_trivia (fun l hl => (htr l hl).1) _, ?_⟩⟩⟩
    · rw [spell_append, List.append_assoc]
      exact stops_of_apart rfl (ha _)
    · exact ⟨trivial, .inr trivial, trivial⟩
  have hwait : waiting [] cl = cs.map (normalText nl) := by
    rw [waiting_of_trivia fun l hl => (htr l hl).1.2, hn, List.nil_append]
  have hall : ∀ l ∈ .identifier name :: (ls ++ (cl ++ [.mark .semicolon])), Padded nl l :=
    List.forall_mem_cons.2 ⟨trivial, List.forall_mem_append.2 ⟨hpad, List.forall_mem_append.2
      ⟨fun l hl => (htr l hl).2, List.forall_mem_singleton.2 trivial⟩⟩⟩
  refine ⟨⟨lead, .identifier name :: (ls ++ (cl ++ [.mark .semicolon])), hlead, hlegible, name, ls ++ cl,
    by simp⟩, rfl, ?_, ?_, hall⟩
  · rw [spell_cons, spell_append, spell_append, hs]
    rfl
  · rw [tokens_token rfl, tokens_append, hw, tokens_append, tokens_of_trivia fun l hl => (htr l hl).1.2, hwait]
    rfl

namespace Page

def tidyNotes (p : Page) (i : Nat) : List Text := (p.notesAt i).map (normalText p.config.newline)

def Readable (p : Page) : Prop := ∀ i, ∀ c ∈ p.notesAt i, (Lexeme.comment c).Proper

variable {p : Page}

theorem carries_write (hp : p.Readable) {ps : List Piece} {ks : List Kind} (h : Spells true ps ks) (i : Nat) :
    Carries p.config.newline (p.write i ps) (attach p.tidyNotes i ks) :=
  Layout.carries_write p.config.newline hp h i

theorem spells_further {α : Type} (style : QuoteStyle) {e : Expr α} (h : ∀ k ∈ e.yield, k.Legal) :
    Spells true (operator (.joining .alternation) :: .space :: pieces style e)
      (.mark (.operator (.joining .alternation)) :: (e.mapAtom (Atom.requote style)).yield) :=
  .mark (m := .operator (.joining .alternation)) (by simp) (.space (spells_pieces style h))

theorem write_word_space (p : Page) (i : Nat) (w : Text) (ps : List Piece) :
    p.write i (.word w :: .space :: ps) = p.write i [.word w] ++ ' ' :: p.write (i + 1) ps := by
  simp [write, Layout.write]

theorem padding_spaces (nl : Newline) (n : Nat) : Padding nl (Text.spaces n ++ [' ']) :=
  ⟨n, .inl List.replicate_succ'.symm⟩

theorem carries_equals (hp : p.Readable) (n i : Nat) {ps : List Piece} {ks : List Kind} (h : Spells true ps ks) :
    Carries p.config.newline ((Text.spaces n ++ [' ']) ++ p.write i (.word ['='] :: .space :: ps))
      (attach p.tidyNotes i (.mark .equals :: ks)) :=
  (carries_write hp (.mark (m := .equals) (by simp) (.space h)) i).gap (padding_spaces _ n)

theorem attach_alternatives (notes : Nat → List Text) (i : Nat) (f : Atom → Atom) {e a : Expr Span}
    {as : List (Expr Span)} (hy : (e.mapAtom f).yield = (a.mapAtom f).yield ++
      as.flatMap fun b => .mark (.operator (.joining .alternation)) :: (b.mapAtom f).yield) :
    attach notes i (.mark .equals :: (e.mapAtom f).yield) =
      attach notes i (.mark .equals :: (a.mapAtom f).yield) ++ attach notes (i + 1 + a.yield.length)
        (as.flatMap fun b => .mark (.operator (.joining .alternation)) :: (b.mapAtom f).yield) := by
  have hlen : i + (Kind.mark .equals :: (a.mapAtom f).yield).length = i + 1 + a.yield.length := by
    rw [List.length_cons, Expr.length_yield_mapAtom]
    omega
  rw [hy, ← List.cons_append, attach_append, hlen]

variable {glue : Text} (hg : Padding p.config.newline glue)
include hg

theorem apart_further {es : List (Expr Span)} (i : Nat) {u : Text} (hu : u.Apart) :
    Text.Apart (((p.further i es).flatMap fun s => glue ++ s.1 ++ ' ' :: s.2) ++ u) := by
  cases es with
  | nil => exact hu
  | cons e es =>
      rw [further, List.flatMap_cons, List.append_assoc, List.append_assoc, List.append_assoc]
      exact hg.apart _

theorem carries_further (hp : p.Readable) {es : List (Expr Span)} (h : ∀ e ∈ es, ∀ k ∈ e.yield, k.Legal)
    (i : Nat) : Carries p.config.newline ((p.further i es).flatMap fun s => glue ++ s.1 ++ ' ' :: s.2)
      (attach p.tidyNotes i (es.flatMap fun e =>
        .mark (.operator (.joining .alternation)) :: (e.mapAtom (Atom.requote p.config.quotes)).yield)) := by
  induction es generalizing i with
  | nil => exact .nil
  | cons e es ih =>
      obtain ⟨he, hes⟩ := List.forall_mem_cons.1 h
      have hfirst := (carries_write hp (spells_further p.config.quotes he) i).gap hg
      have hrest := ih hes (i + 1 + e.yield.length)
      rw [operator, write_word_space, ← List.append_assoc] at hfirst
      rw [List.flatMap_cons, attach_append, List.length_cons, Expr.length_yield_mapAtom,
        Nat.add_comm e.yield.length, ← Nat.add_assoc, further, List.flatMap_cons]
      exact hfirst.append hrest fun v hv => apart_further hg _ hv

/-- A body is written between the padding and a space, wherever its line is
broken. -/
theorem carries_body (hp : p.Readable) (n i : Nat) {e : Expr Span} (h : ∀ k ∈ e.yield, k.Legal) {a : Expr Span}
    {as : List (Expr Span)} (ha : alternatives e = a :: as) :
    Carries p.config.newline (((Text.spaces n ++ [' ']) ++ p.write i (.word ['='] :: .space :: pieces p.config.quotes a) ++
        (p.further (i + 1 + a.yield.length) as).flatMap fun s => glue ++ s.1 ++ ' ' :: s.2) ++ [' '])
      (attach p.tidyNotes i (.mark .equals :: (e.mapAtom (Atom.requote p.config.quotes)).yield)) := by
  obtain ⟨a', as', ha', hy⟩ := exists_alternatives e
  obtain ⟨rfl, rfl⟩ := List.cons.inj (ha.symm.trans ha')
  obtain ⟨hla, hlas⟩ := forall_alternatives h ha
  have hfirst := carries_equals hp n i (spells_pieces p.config.quotes hla)
  have hfurther := carries_further hg hp hlas (i + 1 + a.yield.length)
  have hspace : Carries p.config.newline [' '] [] := Carries.nil.gap (.space _)
  have hline := (hfirst.append hfurther fun v hv => apart_further hg _ hv).append hspace
    fun v _ => Text.apart_space v
  rwa [← attach_alternatives _ _ _ (hy _), List.append_nil] at hline

theorem exists_passage_parts (hp : p.Readable) (e : Entry) (h : ∀ k ∈ e.rule.yield, k.Legal)
    {lead : List Lexeme} (hlead : ∀ l ∈ lead, l.IsTrivia) :
    ∃ q : Passage, q.lead = lead ∧ spell q.body = (p.parts e).text glue ∧
      tokens [] q.body = ([], .identifier e.rule.name) ::
        attach p.tidyNotes (e.index + 1) (e.rule.mapAtom (Atom.requote p.config.quotes)).yield.tail ∧
      ∀ l ∈ q.body, Padded p.config.newline l := by
  obtain ⟨i, w, opens, name, np, body, place⟩ := e
  have hname : (Lexeme.identifier name).Proper :=
    Atom.proper_lexeme (a := .identifier name) (h _ List.mem_cons_self)
  have hapart (t : Text) : Text.Apart ((Text.spaces (w - name.length) ++ [' ']) ++ t) :=
    (padding_spaces p.config.newline _).apart t
  cases body with
  | none =>
      have hequals := carries_equals hp (w - name.length) (i + 1) (.nil _)
      obtain ⟨q, hq, hs, ht, hpad⟩ := exists_passage hlead hname hequals
        (fun u => by rw [List.append_assoc]; exact hapart _) (hp (i + 2))
      refine ⟨q, hq, ?_, ht, hpad⟩
      rw [hs]
      simp [parts, Parts.text, bodyYield, Text.padRight, newline, write, Layout.write]
  | some e =>
      have he : ∀ k ∈ e.yield, k.Legal := fun k hk => h k (by simp [Rule.yield, bodyYield, hk])
      obtain ⟨a, as, ha, -⟩ := exists_alternatives e
      have hbody := carries_body hg hp (w - name.length) (i + 1) he ha
      obtain ⟨q, hq, hs, ht, hpad⟩ := exists_passage hlead hname hbody
        (fun u => by rw [List.append_assoc, List.append_assoc, List.append_assoc]; exact hapart _)
        (hp (i + 2 + e.yield.length))
      refine ⟨q, hq, ?_, ?_, hpad⟩
      · rw [hs, write_word_space]
        simp [parts, Parts.text, bodyYield, ha, Text.padRight, newline, write, Layout.write]
      · have hyield : (Rule.mapAtom (Atom.requote p.config.quotes) ⟨name, np, some e, place⟩).yield.tail =
            (.mark .equals :: (e.mapAtom (Atom.requote p.config.quotes)).yield) ++ [.mark .semicolon] := rfl
        have hlen : i + 1 + (Kind.mark .equals :: (e.mapAtom (Atom.requote p.config.quotes)).yield).length =
            i + 2 + e.yield.length := by
          rw [List.length_cons, Expr.length_yield_mapAtom]
          omega
        rw [ht, hyield, attach_append, hlen]
        rfl

end Page

end Layout

end Ebnf
