import Sable.Proofs.Syntax.Rereading

/-!
# Reading types back

A type is read back if neither `::` nor `->` follows it. The type grammar of one level reads the
types whose parts the level below reads, since a part has at least one token less.
-/

namespace Sable

open Wording

/-! ### Wordings of lists -/

theorem TypeExpr.wordings_eq_map (ts : List TypeExpr) :
    TypeExpr.wordings ts = ts.map TypeExpr.wording := by
  induction ts with
  | nil => rw [TypeExpr.wordings, List.map_nil]
  | cons t ts ih => rw [TypeExpr.wordings, List.map_cons, ih]

theorem TypeExpr.wording?_eq_map (t? : Option TypeExpr) :
    TypeExpr.wording? t? = t?.map TypeExpr.wording := by
  cases t? with
  | none => rw [TypeExpr.wording?, Option.map_none]
  | some t => rw [TypeExpr.wording?, Option.map_some]

theorem FieldDecl.wordings_eq_map (ds : List FieldDecl) :
    FieldDecl.wordings ds = ds.map FieldDecl.wording := by
  induction ds with
  | nil => rw [FieldDecl.wordings, List.map_nil]
  | cons d ds ih => rw [FieldDecl.wordings, List.map_cons, ih]

namespace Parser

variable {n : Nat} {F : TokenKind → Prop}

/-! ### Types -/

/-- The tokens behind a type: none of them goes on with it. -/
def EndsType (k : TokenKind) : Prop := k ≠ .punct .colonColon ∧ k ≠ .punct .arrow

/-- A parser of types reads every type back. -/
def ReadsTypes (p : Parser TypeExpr) (n : Nat) : Prop :=
  ∀ t : TypeExpr, t.WellFormed → p.Reads n t.wording [] EndsType fun u => u.Alike Anywhere t

theorem starts_typeWording (t : TypeExpr) :
    t.wording.Starts fun k => k ≠ .punct .rparen ∧ k ≠ .eof := by
  cases t with
  | primitive p span =>
    rw [TypeExpr.wording]
    exact starts_token (by simp)
  | named x =>
    rw [TypeExpr.wording]
    exact starts_token (by simp)
  | array elem span | struct fields span | function params ret span | qualified module x span =>
    rw [TypeExpr.wording]
    exact (starts_token (by simp)).cons

theorem reads_fieldDecl {nested : Parser TypeExpr} (hnested : ReadsTypes nested n)
    {d : FieldDecl} (hd : d.WellFormed) :
    (fieldDecl nested).Reads n d.wording [] EndsType fun e => e.Alike Anywhere d := by
  obtain ⟨x, span, hty⟩ := hd
  rw [FieldDecl.wording]
  refine reads_look fun start => ?_
  refine Reads.accept_optional (leads_token (by simp)) fun _ => ?_
  refine Reads.ident_next fun y hy => ?_
  refine Reads.expect_next ?_
  refine (hnested _ hty).bind_last (fun _ hk => hk) fun ty' hty' => ?_
  exact reads_spanSince fun span' => reads_pure (.mk span' span hy hty')

theorem starts_fieldWording (d : FieldDecl) :
    d.wording.Starts fun k => k ≠ .punct .rbrace ∧ k ≠ .eof := by
  obtain ⟨x, ty, span⟩ := d
  rw [FieldDecl.wording]
  rintro w ⟨u, rfl | rfl, v, hv, rfl⟩
  · exact (starts_token (F := fun k => k ≠ .punct .rbrace ∧ k ≠ .eof) (by simp)).cons v hv
  · exact ⟨_, v, rfl, by simp⟩

/-- A name behind which no `::` follows stands for the type of that name. -/
theorem reads_namedType {x : Ident} {t : TypeExpr} (start : Span)
    (h : ∀ y : Ident, y.Alike Anywhere x → (typeOfName y).Alike Anywhere t) :
    (namedType start).Reads n (Wording.ident x) [] EndsType fun u => u.Alike Anywhere t := by
  refine reads_sequence_singleton.mp ?_
  refine Reads.ident_next fun y hy => ?_
  exact Reads.behind_else (leads_nil fun _ hk => hk.1) (reads_pure (h y hy))

theorem reads_qualifiedType {module x : Ident} (start span : Span) :
    (namedType start).Reads n (sequence [Wording.ident module, mark .colonColon, Wording.ident x])
      [] F fun u => u.Alike Anywhere (.qualified module x span) := by
  refine Reads.ident_next fun y hy => ?_
  refine Reads.behind_then ?_
  refine Reads.ident_next fun z hz => ?_
  exact reads_spanSince fun span' => reads_pure (.qualified span' span hy hz)

theorem ReadsTypes.step {nested : Parser TypeExpr} (hnested : ReadsTypes nested n) :
    ReadsTypes (typeStep n nested) (n + 1) := by
  intro t ht
  refine reads_look fun start => ?_
  cases ht with
  | primitive p span =>
    rw [TypeExpr.wording]
    refine reads_kind_singleton (reads_namedType start fun y hy => ?_)
    have hp : typeOfName y = .primitive p y.span := by
      rw [typeOfName, hy.name, Primitive.ofName?_eq_some_iff.mpr rfl]
    rw [hp]
    exact .primitive p _ _
  | @named x hx =>
    rw [TypeExpr.wording]
    refine reads_kind_singleton (reads_namedType start fun y hy => ?_)
    have hname : typeOfName y = .named y := by rw [typeOfName, hy.name, hx]
    rw [hname]
    exact .named hy
  | qualified module x span =>
    rw [TypeExpr.wording]
    exact reads_kind_token (reads_qualifiedType start span)
  | @array elem span helem =>
    rw [TypeExpr.wording]
    refine reads_kind_token (Reads.skip_then ?_)
    refine Reads.expect_next ?_
    refine (hnested _ helem).bind_last (fun _ hk => hk) fun elem' helem' => ?_
    exact reads_spanSince fun span' => reads_pure (.array span' span helem')
  | @struct fields span hfields =>
    rw [TypeExpr.wording, FieldDecl.wordings_eq_map]
    refine reads_kind_token (Reads.skip_then ?_)
    refine Reads.expect_next ?_
    refine (Reads.plainItemsUntil (fun d hd => reads_fieldDecl hnested (hfields d hd))
      (fun d _ => starts_fieldWording d) (by simp [EndsType]) (by simp [EndsType])
      (by simp)).bind_last (fun _ hk => hk) fun fields' hfields' => ?_
    exact reads_spanSince fun span' => reads_pure (.struct span' span hfields')
  | @function params ret span hparams hret =>
    rw [TypeExpr.wording, TypeExpr.wordings_eq_map, TypeExpr.wording?_eq_map]
    refine reads_kind_token (Reads.skip_then ?_)
    refine Reads.expect_next ?_
    refine (Reads.plainItemsUntil (fun t ht => hnested t (hparams t ht))
      (fun t _ => starts_typeWording t) (by simp [EndsType]) (by simp [EndsType])
      (by simp)).bind (F := fun _ => True) leads_true fun params' hparams' => ?_
    refine (Reads.behind (fun t ht => hnested t (hret t ht)) fun k hk => ⟨hk, hk.2⟩).bind_last
      (fun _ hk => hk) fun ret' hret' => ?_
    exact reads_spanSince fun span' => reads_pure (.function span' span hparams' hret')

theorem readsTypes_typeWithin (n : Nat) : ReadsTypes (typeWithin n) n := by
  induction n with
  | zero => exact fun t _ => reads_zero (starts_typeWording t)
  | succ n ih => exact ih.step

end Parser

end Sable
