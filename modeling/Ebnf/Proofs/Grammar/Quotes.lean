import Ebnf.Grammar.Render
import Ebnf.Layout.Config
import Ebnf.Proofs.Grammar.Binding

namespace Ebnf

open Layout

variable {α β : Type}

def Atom.unquoted : Atom → Atom
  | .terminal text _ => .terminal text default
  | a => a

def Atom.requote (style : QuoteStyle) : Atom → Atom
  | .terminal text quote => .terminal text (style.choose text quote)
  | a => a

def Atom.Quotable : Atom → Prop
  | .terminal text quote => quote.char ∉ text
  | _ => True

theorem Layout.QuoteStyle.choose_preserve {text : Text} {quote : Quote} (h : quote.char ∉ text) :
    QuoteStyle.preserve.choose text quote = quote := by
  cases quote <;> exact if_neg h

/-- The quote gives way only to one that the text lacks as well. -/
theorem Layout.QuoteStyle.choose_notMem (style : QuoteStyle) {text : Text} {quote : Quote}
    (h : quote.char ∉ text) : (style.choose text quote).char ∉ text := by
  cases style with
  | preserve => rwa [choose_preserve h]
  | prefer wanted =>
      by_cases hw : wanted.char ∈ text
      · have hq : quote ≠ wanted := by
          rintro rfl
          exact h hw
        cases wanted <;> cases quote <;> simp_all [choose, Quote.char]
      · cases wanted <;> simp_all [choose, Quote.char]

/-- A second choice forgets the first one, unless it is to keep what it finds. -/
theorem Layout.QuoteStyle.choose_choose {style next : QuoteStyle} (hn : next = .preserve → style = .preserve)
    {text : Text} {quote : Quote} (h : quote.char ∉ text) :
    next.choose text (style.choose text quote) = next.choose text quote := by
  cases next with
  | preserve => rw [hn rfl, choose_preserve h, choose_preserve h]
  | prefer wanted => cases wanted <;> rfl

namespace Atom

variable {a : Atom} {style : QuoteStyle}

theorem unquoted_requote (style : QuoteStyle) (a : Atom) : (a.requote style).unquoted = a.unquoted := by
  cases a <;> rfl

theorem Quotable.requote (style : QuoteStyle) (h : a.Quotable) : (a.requote style).Quotable := by
  cases a with
  | terminal text quote => exact style.choose_notMem h
  | _ => trivial

theorem Quotable.requote_preserve (h : a.Quotable) : a.requote .preserve = a := by
  cases a with
  | terminal text quote => rw [Atom.requote, QuoteStyle.choose_preserve h]
  | _ => rfl

theorem Quotable.requote_requote {next : QuoteStyle} (hn : next = .preserve → style = .preserve)
    (h : a.Quotable) : (a.requote style).requote next = a.requote next := by
  cases a with
  | terminal text quote => simp only [Atom.requote, QuoteStyle.choose_choose hn h]
  | _ => rfl

end Atom

namespace Expr

def mapAtom (f : Atom → Atom) : Expr α → Expr α
  | .atom a p => .atom (f a) p
  | .binary c l r p => .binary c (l.mapAtom f) (r.mapAtom f) p
  | .without l p => .without (l.mapAtom f) p
  | .counted n q e p => .counted n q (e.mapAtom f) p
  | .group b e p => .group b (e.mapAtom f) p
  | .empty b p => .empty b p

variable {f g : Atom → Atom} {e : Expr α}

@[simp] theorem strength_mapAtom (f : Atom → Atom) (e : Expr α) : (e.mapAtom f).strength = e.strength := by
  cases e <;> rfl

@[simp] theorem wellBound_mapAtom (f : Atom → Atom) (e : Expr α) : (e.mapAtom f).WellBound ↔ e.WellBound := by
  induction e <;> simp_all [mapAtom, WellBound]

theorem mapAtom_mapAtom (f g : Atom → Atom) (e : Expr α) :
    (e.mapAtom f).mapAtom g = e.mapAtom fun a => g (f a) := by
  induction e <;> simp_all [mapAtom]

theorem map_mapAtom (h : α → β) (f : Atom → Atom) (e : Expr α) : (e.mapAtom f).map h = (e.map h).mapAtom f := by
  induction e <;> simp_all [mapAtom, map]

theorem mapAtom_congr (h : ∀ a, a.kind ∈ e.yield → f a = g a) : e.mapAtom f = e.mapAtom g := by
  induction e with
  | atom a => rw [mapAtom, mapAtom, h a (by simp [yield])]
  | binary c l r _ ihl ihr =>
      rw [mapAtom, mapAtom, ihl fun a ha => h a (by simp [yield, ha]), ihr fun a ha => h a (by simp [yield, ha])]
  | without l _ ih => rw [mapAtom, mapAtom, ih fun a ha => h a (by simp [yield, ha])]
  | counted n _ e _ ih => rw [mapAtom, mapAtom, ih fun a ha => h a (by simp [yield, ha])]
  | group b e _ ih => rw [mapAtom, mapAtom, ih fun a ha => h a (by simp [yield, ha])]
  | empty => rfl

theorem mapAtom_id (e : Expr α) : (e.mapAtom fun a => a) = e := by
  induction e <;> simp_all [mapAtom]

theorem map_yield_mapAtom {h : Kind → β} (hf : ∀ a, h (f a).kind = h a.kind) (e : Expr α) :
    (e.mapAtom f).yield.map h = e.yield.map h := by
  induction e <;> simp_all [mapAtom, yield]

theorem length_yield_mapAtom (f : Atom → Atom) (e : Expr α) : (e.mapAtom f).yield.length = e.yield.length := by
  simpa using congrArg List.length (map_yield_mapAtom (h := fun _ => ()) (f := f) (fun _ => rfl) e)

@[simp] theorem render_map (f : α → β) (e : Expr α) : (e.map f).render = e.render := by
  induction e <;> simp_all [map, render]

end Expr

namespace Rule

def mapAtom (f : Atom → Atom) (r : Rule α) : Rule α := { r with body := r.body.map (Expr.mapAtom f) }

variable {f g : Atom → Atom} {r : Rule α}

theorem wellBound_mapAtom (f : Atom → Atom) (r : Rule α) : (r.mapAtom f).WellBound ↔ r.WellBound := by
  cases h : r.body <;> simp [mapAtom, WellBound, h]

theorem mapAtom_mapAtom (f g : Atom → Atom) (r : Rule α) :
    (r.mapAtom f).mapAtom g = r.mapAtom fun a => g (f a) := by
  cases h : r.body <;> simp [mapAtom, Expr.mapAtom_mapAtom, h]

theorem bare_mapAtom (f : Atom → Atom) (r : Rule α) : (r.mapAtom f).bare = r.bare.mapAtom f := by
  cases h : r.body <;> simp [mapAtom, bare, map, Expr.map_mapAtom, h]

theorem mapAtom_congr (h : ∀ a, a.kind ∈ r.yield → f a = g a) : r.mapAtom f = r.mapAtom g := by
  cases hb : r.body with
  | none => simp [mapAtom, hb]
  | some e =>
      have he : e.mapAtom f = e.mapAtom g :=
        Expr.mapAtom_congr fun a ha => h a (by simp [yield, bodyYield, hb, ha])
      simp [mapAtom, hb, he]

theorem mapAtom_id (r : Rule α) : (r.mapAtom fun a => a) = r := by
  cases r with
  | mk name np body p => cases body <;> simp [mapAtom, Expr.mapAtom_id]

theorem map_yield_mapAtom {h : Kind → β} (hf : ∀ a, h (f a).kind = h a.kind) (r : Rule α) :
    (r.mapAtom f).yield.map h = r.yield.map h := by
  cases hb : r.body <;> simp [mapAtom, yield, bodyYield, Expr.map_yield_mapAtom hf, hb]

theorem length_yield_mapAtom (f : Atom → Atom) (r : Rule α) : (r.mapAtom f).yield.length = r.yield.length := by
  simpa using congrArg List.length (map_yield_mapAtom (h := fun _ => ()) (f := f) (fun _ => rfl) r)

theorem render_bare (r : Rule α) : r.bare.render = r.render := by
  cases h : r.body <;> simp [bare, map, render, h]

end Rule

namespace Grammar

def unquoted (g : Grammar α) : List (Rule Unit) := g.rules.map fun r => r.bare.mapAtom Atom.unquoted

theorem render_bare (g : Grammar α) : g.bare.render = g.render := by
  simp [render, bare_rules, Function.comp_def, Rule.render_bare]

end Grammar

end Ebnf
