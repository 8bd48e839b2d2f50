import Ebnf.Proofs.Layout.Entries
import Ebnf.Proofs.Layout.Line

namespace Ebnf.Layout

theorem forall₂_of_map_eq {α β γ : Type} {f : α → γ} {g : β → γ} {xs : List α} {ys : List β}
    (h : xs.map f = ys.map g) : List.Forall₂ (fun x y => f x = g y) xs ys := by
  rw [← List.forall₂_eq_eq_eq, List.forall₂_map_left_iff, List.forall₂_map_right_iff] at h
  exact h

variable {α β : Type} {style : QuoteStyle}

theorem pieces_map (style : QuoteStyle) (f : α → β) (e : Expr α) : pieces style (e.map f) = pieces style e := by
  induction e <;> simp_all [Expr.map, pieces]

def Undone (style : QuoteStyle) (f : Atom → Atom) (ks : List Kind) : Prop :=
  ∀ a : Atom, a.kind ∈ ks → (f a).requote style = a.requote style

theorem Undone.mono {f : Atom → Atom} {ks ls : List Kind} (h : Undone style f ls) (hk : ∀ k ∈ ks, k ∈ ls) :
    Undone style f ks :=
  fun a ha => h a (hk _ ha)

theorem undone_requote {next : QuoteStyle} (hn : next = .preserve → style = .preserve) {ks : List Kind}
    (h : ∀ k ∈ ks, k.Legal) : Undone next (Atom.requote style) ks :=
  fun _ ha => (Atom.quotable_of_legal (h _ ha)).requote_requote hn

theorem undone_id (style : QuoteStyle) (ks : List Kind) : Undone style (fun a => a) ks := fun _ _ => rfl

theorem pieces_mapAtom {f : Atom → Atom} {e : Expr α} (h : Undone style f e.yield) :
    pieces style (e.mapAtom f) = pieces style e := by
  induction e with
  | atom a p => rw [Expr.mapAtom, pieces, pieces, atomText_eq, atomText_eq, h a (by simp [Expr.yield])]
  | binary c l r p ihl ihr =>
      rw [Expr.mapAtom, pieces, pieces, ihl (h.mono fun k hk => by simp [Expr.yield, hk]),
        ihr (h.mono fun k hk => by simp [Expr.yield, hk])]
  | without l p ih => rw [Expr.mapAtom, pieces, pieces, ih (h.mono fun k hk => by simp [Expr.yield, hk])]
  | counted n q e p ih => rw [Expr.mapAtom, pieces, pieces, ih (h.mono fun k hk => by simp [Expr.yield, hk])]
  | group b e p ih => rw [Expr.mapAtom, pieces, pieces, ih (h.mono fun k hk => by simp [Expr.yield, hk])]
  | empty b p => rfl

theorem alternatives_map (f : α → β) (e : Expr α) :
    alternatives (e.map f) = (alternatives e).map (Expr.map f) := by
  induction e with
  | binary c l r p ihl _ => cases c <;> simp [Expr.map, alternatives, ihl]
  | _ => rfl

theorem alternatives_mapAtom (f : Atom → Atom) (e : Expr α) :
    alternatives (e.mapAtom f) = (alternatives e).map (Expr.mapAtom f) := by
  induction e with
  | binary c l r p ihl _ => cases c <;> simp [Expr.mapAtom, alternatives, ihl]
  | _ => rfl

def SamePieces (style : QuoteStyle) (a b : Expr Span) : Prop :=
  pieces style a = pieces style b ∧ a.yield.length = b.yield.length

theorem samePieces_of_bare_eq {f : Atom → Atom} {a b : Expr Span} (hf : Undone style f b.yield)
    (h : a.bare = (b.mapAtom f).bare) : SamePieces style a b := by
  constructor
  · have hp := congrArg (pieces style) h
    rwa [Expr.bare, Expr.bare, pieces_map, pieces_map, pieces_mapAtom hf] at hp
  · have hy := congrArg (List.length ∘ Expr.yield) h
    rwa [Function.comp_apply, Function.comp_apply, Expr.yield_bare, Expr.yield_bare,
      Expr.length_yield_mapAtom] at hy

theorem alternatives_forall₂ {f : Atom → Atom} {a b : Expr Span} (hf : Undone style f b.yield)
    (h : a.bare = (b.mapAtom f).bare) : List.Forall₂ (SamePieces style) (alternatives a) (alternatives b) := by
  have ha := congrArg alternatives h
  rw [Expr.bare, Expr.bare, alternatives_map, alternatives_map, alternatives_mapAtom, List.map_map] at ha
  have hmem : ∀ c ∈ alternatives b, Undone style f c.yield :=
    fun c hc => hf.mono fun k hk => mem_yield_of_mem_alternatives hc hk
  have hflip := (List.forall₂_and_left _ _).2 ⟨hmem, (forall₂_of_map_eq ha).flip⟩
  apply hflip.flip.imp
  intro x y hxy
  exact samePieces_of_bare_eq hxy.1 hxy.2

theorem commentsText_congr {newline : Text} {cs ds : List Text}
    (h : cs.map (commentText newline) = ds.map (commentText newline)) (fresh : Bool) :
    commentsText newline fresh cs = commentsText newline fresh ds := by
  induction cs generalizing ds fresh with
  | nil =>
      obtain rfl := List.map_eq_nil_iff.1 h.symm
      rfl
  | cons c cs ih =>
      obtain ⟨d, ds, rfl, hd, hds⟩ := List.map_eq_cons_iff.1 h.symm
      rw [commentsText, commentsText, ih hds.symm, hd]

theorem write_congr {newline : Text} {notes notes' : Nat → List Text}
    (h : ∀ i, (notes i).map (commentText newline) = (notes' i).map (commentText newline)) (fresh : Bool) (i : Nat)
    (ps : List Piece) : write newline notes fresh i ps = write newline notes' fresh i ps := by
  induction ps generalizing fresh i with
  | nil => rfl
  | cons x ps ih =>
      cases x with
      | space => rw [write, write, ih]
      | word w => rw [write, write, ih, commentsText_congr (h i)]

namespace Page

/-- Pages that show every comment in the same way. -/
structure Alike (p p' : Page) : Prop where
  config : p.config = p'.config
  tidyNotes : p.tidyNotes = p'.tidyNotes

variable {p p' : Page} (h : Alike p p')
include h

theorem Alike.newline : p.newline = p'.newline := by rw [Page.newline, h.config, Page.newline]

theorem Alike.write (i : Nat) (ps : List Piece) : p.write i ps = p'.write i ps := by
  have hn (i : Nat) : (p.notesAt i).map (commentText p.newline) = (p'.notesAt i).map (commentText p.newline) := by
    have ht := congrFun h.tidyNotes i
    rw [Page.tidyNotes, Page.tidyNotes, ← h.config] at ht
    have hc := congrArg (List.map fun t => (Lexeme.comment t).spelling) ht
    rwa [List.map_map, List.map_map] at hc
  rw [Page.write, Page.write, ← h.newline, write_congr hn]

theorem Alike.further {es es' : List (Expr Span)}
    (he : List.Forall₂ (SamePieces p.config.quotes) es es') (i : Nat) :
    p.further i es = p'.further i es' := by
  induction he generalizing i with
  | nil => rfl
  | cons ha _ ih =>
      rw [Page.further, Page.further, h.write, h.write, ← h.config, ha.1, ha.2, ih]

theorem Alike.noteLines (i : Nat) : p.noteLines i = p'.noteLines i := by
  have hn (p : Page) : p.noteLines i =
      (p.tidyNotes i).flatMap fun t => (Lexeme.comment t).spelling ++ p.config.newline.text := by
    rw [Page.tidyNotes, List.flatMap_map]
    rfl
  rw [hn, hn, h.tidyNotes, h.config]

variable {e e' : Entry} (hp : SamePlace e e') {f : Atom → Atom} (hr : e.rule.bare = (e'.rule.mapAtom f).bare)
  (hf : Undone p.config.quotes f e'.rule.yield)
include hp hr hf

theorem Alike.parts : p.parts e = p'.parts e' := by
  obtain ⟨i, w, _, name, np, body, place⟩ := e
  obtain ⟨i', w', _, name', np', body', place'⟩ := e'
  obtain ⟨rfl, rfl, -⟩ : i = i' ∧ w = w' ∧ _ := hp
  obtain rfl : name = name' := congrArg Rule.name hr
  have hbody := congrArg Rule.body hr
  cases body with
  | none =>
      cases body' with
      | none => simp [Page.parts, h.write]
      | some b => cases hbody
  | some a =>
      cases body' with
      | none => cases hbody
      | some b =>
          have hab : a.bare = (b.mapAtom f).bare := Option.some.inj hbody
          have hfb : Undone p.config.quotes f b.yield := hf.mono fun k hk => by simp [Rule.yield, bodyYield, hk]
          have hlen : a.yield.length = b.yield.length := (samePieces_of_bare_eq hfb hab).2
          have halt := alternatives_forall₂ hfb hab
          obtain ⟨x, xs, hx, -⟩ := exists_alternatives a
          rw [hx] at halt
          obtain ⟨y, ys, hxy, hxys, hy⟩ := List.forall₂_cons_left_iff.1 halt
          simp only [Page.parts, Option.elim_some, bodyYield, hx, hy]
          rw [h.further hxys, h.write, h.write, h.write, ← h.config, hxy.1, hxy.2, hlen]

theorem Alike.ruleText : p.ruleText e = p'.ruleText e' := by
  rw [Page.ruleText, Page.ruleText, h.parts hp hr hf, h.config, h.newline]

end Page

end Ebnf.Layout
