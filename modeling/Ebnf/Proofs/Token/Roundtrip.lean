import Ebnf.Proofs.Token.Items

namespace Ebnf

open Lexeme

def Tiles : Nat → List Span → Nat → Prop
  | n, [], m => n = m
  | n, s :: ss, m => s.start = n ∧ s.start ≤ s.stop ∧ Tiles s.stop ss m

/-- The texts that stand for a token. -/
def Kind.Spelled : Kind → Text → Prop
  | .identifier name, s => s = name ∧ ∃ c t, name = c :: t ∧ c.isAlpha = true ∧ ∀ d ∈ t, isNamePart d = true
  | .terminal text quote, s => s = quote.char :: text ++ [quote.char] ∧ quote.char ∉ text
  | .special text, s => s = '?' :: text ++ ['?'] ∧ '?' ∉ text
  | .integer value, s => s ≠ [] ∧ (∀ c ∈ s, c.isDigit = true) ∧ Decimal.value s = value
  | .mark m, s => s = [m.char]
  | .eof, s => s = []

/-- A gap is as long as it can be, to both sides. -/
def Trivia.Spelled (source : Text) : Trivia → Prop
  | .comment body span =>
      source.slice? span.start span.stop = some ('(' :: '*' :: body ++ ['*', ')']) ∧ ¬ ['*', ')'] <:+: body
  | .gap span => ∃ before run after, source = before ++ (run ++ after) ∧
      span = ⟨before.byteLength, before.byteLength + run.byteLength⟩ ∧ run ≠ [] ∧
      (∀ c ∈ run, isGap c = true) ∧ (∀ c ∈ before.getLast?, isGap c = false) ∧ ∀ c ∈ after.head?, isGap c = false

def Item.Spelled (source : Text) : Item → Prop
  | .trivia x => x.Spelled source
  | .token kind span => ∃ text, source.slice? span.start span.stop = some text ∧ kind.Spelled text

namespace Lexeme

variable {l : Lexeme} {ls : List Lexeme}

theorem tiles_items (n : Nat) (ls : List Lexeme) :
    Tiles n ((items n ls).map Item.span) (n + (spell ls).byteLength) := by
  induction ls generalizing n with
  | nil => exact ⟨rfl, Nat.le_refl n, rfl⟩
  | cons l ls ih =>
      rw [items, List.map_cons, span_item, spell_cons, Text.byteLength_append, ← Nat.add_assoc]
      exact ⟨rfl, Nat.le_add_right _ _, ih _⟩

theorem flatMap_slice_items (before : Text) (ls : List Lexeme) :
    ((items before.byteLength ls).map Item.span).flatMap (·.slice (before ++ spell ls)) = spell ls := by
  induction ls generalizing before with
  | nil =>
      have hs := Span.slice_append before [] []
      simpa [items, Item.span] using hs
  | cons l ls ih =>
      have hs := Span.slice_append before l.spelling (spell ls)
      have ht := ih (before ++ l.spelling)
      rw [Text.byteLength_append, List.append_assoc] at ht
      rw [items, List.map_cons, span_item, List.flatMap_cons, spell_cons, hs, ht]

theorem Proper.isGap_last (h : l.Proper) (hl : ∀ run, l ≠ .gap run) :
    ∀ c ∈ l.spelling.getLast?, isGap c = false := by
  intro c hc
  have he := h.ends hc
  cases l with
  | gap run => exact absurd rfl (hl run)
  | identifier name => exact isGap_of_isNamePart he
  | integer digits => exact isGap_of_isDigit he
  | mark m => obtain rfl := he; exact m.isGap_char
  | terminal text q => obtain rfl := he; cases q <;> rfl
  | comment | special => obtain rfl := he; rfl

theorem isGap_last_of_chained {run u : Text} (h : Chained (ls ++ [.gap run]) u) :
    ∀ c ∈ (spell ls).getLast?, isGap c = false := by
  rcases ls.eq_nil_or_concat with rfl | ⟨ls, l, rfl⟩
  · simp
  · rw [List.concat_eq_append] at h ⊢
    rw [List.append_assoc, chained_append] at h
    obtain ⟨-, hp, hs, hg, -, -⟩ := h
    have hl : ¬ l.Clashes (.gap run) := (stops_spelling_iff hg _).1 (by simpa using hs)
    rw [getLast?_spell_concat hp]
    apply hp.isGap_last
    rintro run rfl
    exact hl trivial

theorem Proper.spelled {k : Kind} (h : l.Proper) (hk : l.role = .inr k) : k.Spelled l.spelling := by
  cases l with
  | gap | comment => cases hk
  | identifier | terminal | special => cases hk; exact ⟨rfl, h⟩
  | integer => cases hk; exact ⟨h.1, h.2.1, rfl⟩
  | mark => cases hk; rfl

theorem spelled_item {as bs : List Lexeme} (h : Chained (as ++ l :: bs) []) :
    (l.item ⟨(spell as).byteLength, (spell as).byteLength + l.spelling.byteLength⟩).Spelled
      (spell (as ++ l :: bs)) := by
  have hsource : spell (as ++ l :: bs) = spell as ++ (l.spelling ++ spell bs) := by simp
  have hslice := Text.slice?_append (spell as) l.spelling (spell bs)
  obtain ⟨hp, hs, -⟩ := (chained_append.1 h).2
  rw [hsource]
  cases hr : l.role with
  | inr k =>
      simp only [item, hr, Sum.elim_inr]
      exact ⟨_, hslice, hp.spelled hr⟩
  | inl f =>
      simp only [item, hr, Sum.elim_inl]
      cases l with
      | gap run =>
          cases hr
          have hlast : Chained (as ++ [.gap run]) (spell bs) := by
            rw [List.append_cons] at h
            simpa using (chained_append.1 h).1
          have hafter : ∀ c ∈ (spell bs).head?, isGap c = false := by
            rw [List.append_nil] at hs
            exact hs
          exact ⟨spell as, run, spell bs, rfl, rfl, hp.1, hp.2, isGap_last_of_chained hlast, hafter⟩
      | comment body =>
          cases hr
          exact ⟨hslice, hp⟩
      | _ => cases hr

theorem spelled_of_mem_items {x : Item} (hc : Chained ls []) (h : x ∈ items 0 ls) : x.Spelled (spell ls) := by
  rcases mem_items h with rfl | ⟨as, l, bs, rfl, rfl⟩
  · have hslice := Text.slice?_append (spell ls) [] []
    exact ⟨[], by simpa using hslice, rfl⟩
  · rw [Nat.zero_add]
    exact spelled_item hc

end Lexeme

theorem Token.exists_spelled {source : Text} {ts : List Token} {t : Token} (h : tokenize source = .ok ts)
    (ht : t ∈ ts) : ∃ front text back, source = front ++ (text ++ back) ∧
      t.span = ⟨front.byteLength, front.byteLength + text.byteLength⟩ ∧ t.kind.Spelled text := by
  obtain ⟨ls, hc, rfl, rfl⟩ := tokenize_eq_ok.1 h
  have hitem : Item.token t.kind t.span ∈ Lexeme.items 0 ls := by
    have hlast : Item.token t.kind t.span ∈ t.items := by simp [Token.items]
    have hmem := List.mem_flatMap.2 ⟨t, ht, hlast⟩
    rwa [Token.flatMap_items_place] at hmem
  rcases mem_items hitem with he | ⟨as, l, bs, rfl, he⟩
  · obtain ⟨hk, hspan⟩ := Item.token.inj he
    refine ⟨spell ls, [], [], by simp, by simpa using hspan, ?_⟩
    rw [hk]
    rfl
  · obtain ⟨-, hp, -⟩ := chained_append.1 hc
    cases hr : l.role with
    | inl trivia => simp [item, hr] at he
    | inr kind =>
        simp only [item, hr, Sum.elim_inr, Nat.zero_add] at he
        obtain ⟨rfl, hspan⟩ := Item.token.inj he
        exact ⟨spell as, l.spelling, spell bs, by simp, hspan, hp.spelled hr⟩

theorem Kind.Spelled.ne_nil {k : Kind} {s : Text} (h : k.Spelled s) (hk : k ≠ .eof) : s ≠ [] := by
  cases k with
  | identifier name =>
      obtain ⟨rfl, c, t, rfl, -⟩ := h
      exact List.cons_ne_nil c t
  | integer value => exact h.1
  | terminal | special =>
      obtain ⟨rfl, -⟩ := h
      exact List.cons_ne_nil _ _
  | mark m =>
      obtain rfl := h
      exact List.cons_ne_nil _ _
  | eof => exact absurd rfl hk

theorem Item.Spelled.exists_slice {source : Text} {x : Item} (h : x.Spelled source) :
    ∃ text, source.slice? x.span.start x.span.stop = some text := by
  cases x with
  | token kind span =>
      obtain ⟨text, ht, -⟩ := h
      exact ⟨text, ht⟩
  | trivia x => cases x with
      | comment body span => exact ⟨_, h.1⟩
      | gap span =>
          obtain ⟨before, run, after, rfl, rfl, -⟩ := h
          exact ⟨run, Text.slice?_append before run after⟩

theorem Span.isEmpty_of_slice? {source text : Text} {s : Span} (h : source.slice? s.start s.stop = some text)
    (ht : text ≠ []) : s.isEmpty = false := by
  obtain ⟨start, stop⟩ := s
  apply Bool.eq_false_iff.2
  intro he
  have hle : stop ≤ start := of_decide_eq_true he
  simp only [Text.slice?] at h
  split at h
  · rw [Nat.sub_eq_zero_of_le hle] at h
    obtain ⟨rest, -, hr⟩ := Option.bind_eq_some_iff.1 h
    rw [Text.takeBytes?] at hr
    exact ht (Option.some.inj hr).symm
  · cases h

theorem Token.place_closed (here : Location) (before : List Trivia) (ls : List Lexeme) :
    ∃ us stop, place here before ls = us ++ [stop] ∧ stop.kind = .eof ∧ stop.span.isEmpty = true ∧
      ∀ t ∈ us, t.kind ≠ .eof := by
  induction ls generalizing here before with
  | nil => exact ⟨[], _, rfl, rfl, by simp [Span.isEmpty], by simp⟩
  | cons l ls ih =>
      cases hr : l.role with
      | inl trivia =>
          simp only [place, hr]
          exact ih _ _
      | inr kind =>
          obtain ⟨us, stop, h, hk, he, hus⟩ := ih (here.after l.spelling) []
          refine ⟨_ :: us, stop, by simp only [place, hr, h]; rfl, hk, he, List.forall_mem_cons.2 ⟨?_, hus⟩⟩
          cases l <;> cases hr <;> simp

/-- Tokens that say all of a text. With their trivia they fill it without a
hole, every span begins and ends between characters, and the text of each is
the one that stands for it. -/
structure Lossless (source : Text) (ts : List Token) : Prop where
  tiles : Tiles 0 (ts.flatMap Token.spans) source.byteLength
  whole : ∀ s ∈ ts.flatMap Token.spans, ∃ text, source.slice? s.start s.stop = some text
  closed : ∃ us stop, ts = us ++ [stop] ∧ stop.kind = .eof ∧ stop.span.isEmpty = true ∧
    ∀ t ∈ us, t.kind ≠ .eof ∧ t.span.isEmpty = false
  spelled : ∀ x ∈ ts.flatMap Token.items, x.Spelled source
  recovered : (ts.flatMap Token.spans).flatMap (·.slice source) = source

theorem tokenize_lossless {source : Text} {ts : List Token} (h : tokenize source = .ok ts) :
    Lossless source ts := by
  obtain ⟨ls, hc, rfl, rfl⟩ := tokenize_eq_ok.1 h
  have hitems : (Token.place .start [] ls).flatMap Token.items = items 0 ls :=
    Token.flatMap_items_place .start [] ls
  have hspans : (Token.place .start [] ls).flatMap Token.spans = (items 0 ls).map Item.span := by
    rw [← hitems, Token.map_span_flatMap_items]
  have hspelled : ∀ x ∈ (Token.place .start [] ls).flatMap Token.items, x.Spelled (spell ls) := by
    intro x hx
    rw [hitems] at hx
    exact spelled_of_mem_items hc hx
  refine ⟨?_, ?_, ?_, hspelled, ?_⟩
  · rw [hspans]
    have ht := tiles_items 0 ls
    rwa [Nat.zero_add] at ht
  · intro s hs
    rw [← Token.map_span_flatMap_items] at hs
    obtain ⟨x, hx, rfl⟩ := List.mem_map.1 hs
    exact (hspelled x hx).exists_slice
  · obtain ⟨us, stop, hp, hk, he, hus⟩ := Token.place_closed .start [] ls
    refine ⟨us, stop, hp, hk, he, fun t ht => ⟨hus t ht, ?_⟩⟩
    have hx : .token t.kind t.span ∈ (Token.place .start [] ls).flatMap Token.items := by
      rw [hp]
      exact List.mem_flatMap.2 ⟨t, List.mem_append_left _ ht, by simp [Token.items]⟩
    obtain ⟨text, hslice, hs⟩ := hspelled _ hx
    exact Span.isEmpty_of_slice? hslice (hs.ne_nil (hus t ht))
  · rw [hspans]
    exact flatMap_slice_items [] ls

theorem tokenize_lossless_of_wide_character :
    let ts : List Token := [⟨.identifier ['a'], ⟨0, 1⟩, ⟨0, 1, 1⟩, []⟩,
      ⟨.eof, ⟨9, 9⟩, ⟨9, 2, 1⟩, [.gap ⟨1, 2⟩, .comment ['é'] ⟨2, 8⟩, .gap ⟨8, 9⟩]⟩]
    tokenize "a (*é*)\n".toList = .ok ts ∧ Lossless "a (*é*)\n".toList ts :=
  ⟨by decide +kernel, tokenize_lossless (by decide +kernel)⟩

/-- Lexemes that do not clash with their neighbours are read back from their
spelling, each at its place, trivia in front of the token that follows it. -/
theorem tokenize_spell {ls : List Lexeme} (hp : ∀ l ∈ ls, l.Proper)
    (hc : ls.IsChain fun l l' => ¬ l.Clashes l') :
    ∃ ts, tokenize (spell ls) = .ok ts ∧ ts.flatMap Token.items = items 0 ls := by
  have hchained : Chained ls [] := chained_iff_isChain.2 ⟨hp, hc⟩
  refine ⟨Token.place .start [] ls, tokenize_eq_ok.2 ⟨ls, hchained, rfl, rfl⟩, ?_⟩
  exact Token.flatMap_items_place .start [] ls

theorem tokenize_spell_of_close_neighbours :
    let ls : List Lexeme := [.mark (.opening .grouped), .comment [')', '*'], .integer ['0', '7'],
      .identifier ['b'], .gap [' ', '\n'], .terminal ['?'] .single]
    spell ls = "((*)**)07b \n'?'".toList ∧ ∃ ts, tokenize (spell ls) = .ok ts ∧ ts.flatMap Token.items =
      [.token (.mark (.opening .grouped)) ⟨0, 1⟩, .trivia (.comment [')', '*'] ⟨1, 7⟩),
        .token (.integer 7) ⟨7, 9⟩, .token (.identifier ['b']) ⟨9, 10⟩, .trivia (.gap ⟨10, 12⟩),
        .token (.terminal ['?'] .single) ⟨12, 15⟩, .token .eof ⟨15, 15⟩] := by
  intro ls
  have hp : ∀ l ∈ ls, l.Proper := by
    simp only [ls, List.forall_mem_cons, List.not_mem_nil, false_imp_iff, implies_true, and_true]
    exact ⟨trivial, show ¬ _ <:+: _ by decide, ⟨by decide, by simp, by decide⟩, ⟨'b', [], rfl, rfl, by simp⟩,
      ⟨by decide, by simp [isGap]⟩, show _ ∉ _ by decide⟩
  exact ⟨rfl, tokenize_spell hp (by simp [ls, Clashes])⟩

end Ebnf
