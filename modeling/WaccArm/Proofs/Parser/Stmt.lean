import WaccArm.Parser.Stmt
import WaccArm.Proofs.Parser.Right
import WaccArm.Proofs.Parser.Type

namespace WaccArm

namespace Grammar

/-- One statement is its own body. -/
theorem StmtSpelled.joined {first : Source.Stmt} {others : List Source.Stmt} {ts : Phrase}
    (h : StmtSpelled (.list (first :: others)) ts) : StmtSpelled (.body (Parser.joined first others)) ts := by
  cases others with
  | nil => exact .single h
  | cons second others => exact .several h

end Grammar

namespace Parser

open Grammar

variable {r s : Stream}

theorem assigned_sound {e : Source.Expr} {h : r.tokens.length < s.tokens.length}
    (hok : assigned s = .ok ⟨e, r, h⟩) : ∃ p ts, s = r.prepend (mark .assign p :: ts) ∧ RightSpelled e ts := by
  rw [assigned] at hok
  obtain ⟨⟨p, r₁, h₁⟩, hassign, hok⟩ := except_bind_eq_ok.1 hok
  obtain ⟨⟨e', r₂, h₂⟩, hright, hok⟩ := except_bind_eq_ok.1 hok
  cases hok
  obtain ⟨ts, hr₁, he⟩ := rightSide_sound hright
  exact ⟨p, ts, Stream.prepend_trans (consume_eq_ok hassign) hr₁, he⟩

/-- What is read as a declaration is spelled like one. -/
theorem declaration_sound {stmt : Source.Stmt} {h : r.tokens.length < s.tokens.length}
    (hok : declaration s = .ok ⟨stmt, r, h⟩) : ∃ ts, s = r.prepend ts ∧ StmtSpelled (.statement stmt) ts := by
  rw [declaration] at hok
  obtain ⟨⟨type, r₁, h₁⟩, htype, hok⟩ := except_bind_eq_ok.1 hok
  obtain ⟨⟨name, r₂, h₂⟩, hname, hok⟩ := except_bind_eq_ok.1 hok
  obtain ⟨⟨init, r₃, h₃⟩, hinit, hok⟩ := except_bind_eq_ok.1 hok
  cases hok
  obtain ⟨ts, hs, htype⟩ := typeExpr_sound htype
  obtain ⟨q, hr₁⟩ := identifier_eq_ok hname
  obtain ⟨t, us, hr₂, hinit⟩ := assigned_sound hinit
  have hpos := Stream.startsAt_pos hs htype.starts
  exact ⟨_, Stream.prepend_trans hs (Stream.prepend_trans hr₁ hr₂), .declare htype hpos hinit⟩

/-- What is read as an assignment is spelled like one. -/
theorem assignment_sound {stmt : Source.Stmt} {h : r.tokens.length < s.tokens.length}
    (hok : assignment s = .ok ⟨stmt, r, h⟩) : ∃ ts, s = r.prepend ts ∧ StmtSpelled (.statement stmt) ts := by
  rw [assignment] at hok
  obtain ⟨⟨dst, r₁, h₁⟩, hdst, hok⟩ := except_bind_eq_ok.1 hok
  obtain ⟨⟨src, r₂, h₂⟩, hsrc, hok⟩ := except_bind_eq_ok.1 hok
  cases hok
  obtain ⟨ts, hs, hdst⟩ := place_sound s hdst
  obtain ⟨q, us, hr₁, hsrc⟩ := assigned_sound hsrc
  have hpos := Stream.startsAt_pos hs hdst.starts
  exact ⟨_, Stream.prepend_trans hs hr₁, .assign hdst hpos hsrc⟩

/-- A statement that is a word and its operand. -/
theorem operand_sound (make : Source.Expr → Source.Stmt) {r₁ : Stream} {stmt : Source.Stmt}
    {hlt : ∀ x : Parsed Source.Expr r₁, x.rest.tokens.length < s.tokens.length}
    {h : r.tokens.length < s.tokens.length}
    (hok : (expression 0 r₁ >>= fun x => pure ⟨make x.value, x.rest, hlt x⟩ : Parse Source.Stmt s) =
      .ok ⟨stmt, r, h⟩) :
    ∃ e ts, r₁ = r.prepend ts ∧ ExprSpelled (.expr 0 e) ts ∧ make e = stmt := by
  obtain ⟨⟨e, r₂, h₂⟩, hexpression, hok⟩ := except_bind_eq_ok.1 hok
  cases hok
  obtain ⟨ts, hr₁, he⟩ := expression_spelled hexpression
  exact ⟨e, ts, hr₁, he, rfl⟩

mutual

/-- What is read as a body is spelled like one. -/
theorem statements_sound (s : Stream) {stmt : Source.Stmt} {r : Stream}
    {h : r.tokens.length < s.tokens.length} (hok : statements s = .ok ⟨stmt, r, h⟩) :
    ∃ ts, s = r.prepend ts ∧ StmtSpelled (.body stmt) ts := by
  rw [statements] at hok
  obtain ⟨⟨first, r₁, h₁⟩, hfirst, hok⟩ := except_bind_eq_ok.1 hok
  obtain ⟨⟨others, r₂, h₂⟩, hothers, hok⟩ := except_bind_eq_ok.1 hok
  cases hok
  obtain ⟨ts, hs, hfirst⟩ := statement_sound s hfirst
  obtain ⟨us, hr₁, hlist⟩ := furtherStatements_sound r₁ hothers hfirst
  exact ⟨_, Stream.prepend_trans hs hr₁, hlist.joined⟩
termination_by 2 * s.tokens.length + 1

/-- The list is that of the statement in front of the stream and those read from it. -/
theorem furtherStatements_sound (s : Stream) {others : List Source.Stmt} {r : Stream}
    {h : r.tokens.length ≤ s.tokens.length} (hok : furtherStatements s = .ok ⟨others, r, h⟩)
    {first : Source.Stmt} {ts : Phrase} (hfirst : StmtSpelled (.statement first) ts) :
    ∃ us, s = r.prepend us ∧ StmtSpelled (.list (first :: others)) (ts ++ us) := by
  rw [furtherStatements] at hok
  split at hok
  · cases hok
    refine ⟨[], rfl, ?_⟩
    rw [List.append_nil]
    exact .one hfirst
  · rename_i r₁ h₁ hsome
    obtain ⟨⟨second, r₂, h₂⟩, hsecond, hok⟩ := except_bind_eq_ok.1 hok
    obtain ⟨⟨others', r₃, h₃⟩, hothers, hok⟩ := except_bind_eq_ok.1 hok
    cases hok
    obtain ⟨p, hs⟩ := nextIf?_eq_some hsome
    obtain ⟨us, hr₁, hsecond⟩ := statement_sound r₁ hsecond
    obtain ⟨vs, hr₂, hlist⟩ := furtherStatements_sound r₂ hothers hsecond
    exact ⟨_, Stream.prepend_trans hs (Stream.prepend_trans hr₁ hr₂), .cons hfirst hlist⟩
termination_by 2 * s.tokens.length

/-- What is read as a statement is spelled like one. -/
theorem statement_sound (s : Stream) {stmt : Source.Stmt} {r : Stream}
    {h : r.tokens.length < s.tokens.length} (hok : statement s = .ok ⟨stmt, r, h⟩) :
    ∃ ts, s = r.prepend ts ∧ StmtSpelled (.statement stmt) ts := by
  rw [statement] at hok
  obtain ⟨⟨⟨token, p⟩, r₁, h₁⟩, hnext, hok⟩ := except_bind_eq_ok.1 hok
  have hs := next_eq_ok hnext
  simp only at hok
  split at hok
  · cases hok
    exact ⟨_, hs, .skip⟩
  · obtain ⟨⟨e, r₂, h₂⟩, hplace, hok⟩ := except_bind_eq_ok.1 hok
    cases hok
    obtain ⟨ts, hr₁, he⟩ := place_sound r₁ hplace
    exact ⟨_, Stream.prepend_trans hs hr₁, .read he⟩
  · obtain ⟨e, ts, hr₁, he, rfl⟩ := operand_sound (.free p) hok
    exact ⟨_, Stream.prepend_trans hs hr₁, .free he⟩
  · obtain ⟨e, ts, hr₁, he, rfl⟩ := operand_sound (.ret p) hok
    exact ⟨_, Stream.prepend_trans hs hr₁, .ret he⟩
  · obtain ⟨e, ts, hr₁, he, rfl⟩ := operand_sound (.exit p) hok
    exact ⟨_, Stream.prepend_trans hs hr₁, .exit he⟩
  · obtain ⟨e, ts, hr₁, he, rfl⟩ := operand_sound (.print p · false) hok
    exact ⟨_, Stream.prepend_trans hs hr₁, .print he⟩
  · obtain ⟨e, ts, hr₁, he, rfl⟩ := operand_sound (.print p · true) hok
    exact ⟨_, Stream.prepend_trans hs hr₁, .println he⟩
  · obtain ⟨⟨cond, r₂, h₂⟩, hcond, hok⟩ := except_bind_eq_ok.1 hok
    obtain ⟨⟨q, r₃, h₃⟩, hthen, hok⟩ := except_bind_eq_ok.1 hok
    obtain ⟨⟨yes, r₄, h₄⟩, hyes, hok⟩ := except_bind_eq_ok.1 hok
    obtain ⟨⟨t, r₅, h₅⟩, helse, hok⟩ := except_bind_eq_ok.1 hok
    obtain ⟨⟨no, r₆, h₆⟩, hno, hok⟩ := except_bind_eq_ok.1 hok
    obtain ⟨⟨u, r₇, h₇⟩, hfi, hok⟩ := except_bind_eq_ok.1 hok
    cases hok
    have hlt₃ : r₃.tokens.length < s.tokens.length := Nat.lt_trans h₃ (Nat.lt_trans h₂ h₁)
    have hlt₅ : r₅.tokens.length < s.tokens.length := Nat.lt_trans h₅ (Nat.lt_trans h₄ hlt₃)
    obtain ⟨ts, hr₁, hcond⟩ := expression_spelled hcond
    obtain ⟨us, hr₃, hyes⟩ := statements_sound r₃ hyes
    obtain ⟨vs, hr₅, hno⟩ := statements_sound r₅ hno
    have hr₅ := Stream.prepend_trans hr₅ (consume_eq_ok hfi)
    have hr₃ := Stream.prepend_trans hr₃ (Stream.prepend_trans (consume_eq_ok helse) hr₅)
    have hr₁ := Stream.prepend_trans hr₁ (Stream.prepend_trans (consume_eq_ok hthen) hr₃)
    exact ⟨_, Stream.prepend_trans hs hr₁, .branch hcond hyes hno⟩
  · obtain ⟨⟨cond, r₂, h₂⟩, hcond, hok⟩ := except_bind_eq_ok.1 hok
    obtain ⟨⟨q, r₃, h₃⟩, hdo, hok⟩ := except_bind_eq_ok.1 hok
    obtain ⟨⟨body, r₄, h₄⟩, hbody, hok⟩ := except_bind_eq_ok.1 hok
    obtain ⟨⟨t, r₅, h₅⟩, hdone, hok⟩ := except_bind_eq_ok.1 hok
    cases hok
    have hlt₃ : r₃.tokens.length < s.tokens.length := Nat.lt_trans h₃ (Nat.lt_trans h₂ h₁)
    obtain ⟨ts, hr₁, hcond⟩ := expression_spelled hcond
    obtain ⟨us, hr₃, hbody⟩ := statements_sound r₃ hbody
    have hr₃ := Stream.prepend_trans hr₃ (consume_eq_ok hdone)
    have hr₁ := Stream.prepend_trans hr₁ (Stream.prepend_trans (consume_eq_ok hdo) hr₃)
    exact ⟨_, Stream.prepend_trans hs hr₁, .loop hcond hbody⟩
  · obtain ⟨⟨body, r₂, h₂⟩, hbody, hok⟩ := except_bind_eq_ok.1 hok
    obtain ⟨⟨q, r₃, h₃⟩, hend, hok⟩ := except_bind_eq_ok.1 hok
    cases hok
    obtain ⟨ts, hr₁, hbody⟩ := statements_sound r₁ hbody
    have hr₁ := Stream.prepend_trans hr₁ (consume_eq_ok hend)
    exact ⟨_, Stream.prepend_trans hs hr₁, .scope hbody⟩
  · exact declaration_sound hok
  · exact declaration_sound hok
  · exact declaration_sound hok
  · exact declaration_sound hok
  · exact declaration_sound hok
  · exact assignment_sound hok
  · exact assignment_sound hok
  · exact assignment_sound hok
  · cases hok
termination_by 2 * s.tokens.length

end

theorem reads_assigned {e : Source.Expr} {ts us : Phrase} {p : Pos} (h : RightSpelled e ts)
    (hus : Ends (r.prepend us)) :
    Reads (assigned (r.prepend (mark .assign p :: (ts ++ us)))) e (r.prepend us) := by
  rw [assigned]
  refine Reads.bind (reads_symbol ..) fun h₁ => ?_
  exact Reads.bind (reads_rightSide h hus) fun _ => ⟨_, rfl⟩

/-- What starts like a type is a declaration. -/
theorem statement_of_type {ts us : Phrase} (h : Starts startsType ts) :
    statement (r.prepend (ts ++ us)) = declaration (r.prepend (ts ++ us)) := by
  obtain ⟨⟨token, p⟩, ts', rfl, htoken⟩ := h
  rw [statement]
  dsimp only at htoken
  unfold startsType at htoken
  split at htoken
  · rfl
  · rfl
  · rfl
  · rfl
  · rfl
  · cases htoken

/-- What starts like a place is an assignment. -/
theorem statement_of_place {ts us : Phrase} (h : Starts startsPlace ts) :
    statement (r.prepend (ts ++ us)) = assignment (r.prepend (ts ++ us)) := by
  obtain ⟨⟨token, p⟩, ts', rfl, htoken⟩ := h
  rw [statement]
  dsimp only at htoken
  unfold startsPlace at htoken
  split at htoken
  · rfl
  · rfl
  · rfl
  · cases htoken

/-- What is spelled like a declaration is read as it. -/
theorem reads_declaration {type : TypeExpr} {name : String} {init : Source.Expr} {ts us vs : Phrase}
    {p q t : Pos} (htype : TypeSpelled type ts) (hpos : StartsAt ts p) (hinit : RightSpelled init us)
    (hvs : Ends (r.prepend vs)) :
    Reads (declaration (r.prepend (ts ++ ident name q :: mark .assign t :: (us ++ vs))))
      (.declare p type name init) (r.prepend vs) := by
  rw [declaration, Stream.pos_of_startsAt hpos]
  refine Reads.bind (reads_type htype nofun) fun h₁ => ?_
  refine Reads.bind (reads_identifier ..) fun h₂ => ?_
  exact Reads.bind (reads_assigned hinit hvs) fun _ => ⟨_, rfl⟩

/-- What is spelled like an assignment is read as it. -/
theorem reads_assignment {dst src : Source.Expr} {ts us vs : Phrase} {p q : Pos}
    (hdst : PlaceSpelled dst ts) (hpos : StartsAt ts p) (hsrc : RightSpelled src us)
    (hvs : Ends (r.prepend vs)) :
    Reads (assignment (r.prepend (ts ++ mark .assign q :: (us ++ vs)))) (.assign p dst src)
      (r.prepend vs) := by
  rw [assignment, Stream.pos_of_startsAt hpos]
  refine Reads.bind (reads_place hdst nofun) fun h₁ => ?_
  exact Reads.bind (reads_assigned hsrc hvs) fun _ => ⟨_, rfl⟩

theorem trails_noFurther (hs : s.peek? ≠ some (.symbol .semicolon)) : Trails (furtherStatements s) [] s := by
  rw [furtherStatements, nextIf?_eq_none.2 hs]
  exact ⟨_, rfl⟩

section

variable {stmt : Source.Stmt} {others : List Source.Stmt} {t : Stream}

/-- Behind a semicolon another statement is read. -/
theorem trails_furtherStatements {ts : Phrase} {p : Pos} (hfirst : Reads (statement (s.prepend ts)) stmt t)
    (hothers : Trails (furtherStatements t) others r) :
    Trails (furtherStatements (s.prepend (mark .semicolon p :: ts))) (stmt :: others) r := by
  obtain ⟨hlt, hsome⟩ := nextIf?_of_eq s (.symbol .semicolon) p ts
  rw [furtherStatements, hsome]
  refine Reads.bindTrails hfirst fun h₁ => ?_
  exact Trails.bindTrails hothers fun _ => ⟨_, rfl⟩

/-- A body is its first statement and the others. -/
theorem reads_statements (hfirst : Reads (statement s) stmt t) (hothers : Trails (furtherStatements t) others r) :
    Reads (statements s) (joined stmt others) r := by
  rw [statements]
  refine Reads.bind hfirst fun h₁ => ?_
  exact Trails.bind hothers fun _ => ⟨_, rfl⟩

end

/-- How the parser reads a phrase that is spelled: a statement up to where it ends, and a list up
to where no other statement follows. -/
def StmtRead (r : Stream) : StmtTree → Phrase → Prop
  | .statement stmt, ts =>
    ∀ us, Ends (r.prepend us) → Reads (statement (r.prepend (ts ++ us))) stmt (r.prepend us)
  | .list stmts, ts =>
    ∀ us, Ends (r.prepend us) → (r.prepend us).peek? ≠ some (.symbol .semicolon) →
      (∀ p, Trails (furtherStatements (r.prepend (mark .semicolon p :: (ts ++ us)))) stmts (r.prepend us)) ∧
      ∀ first others, stmts = first :: others →
        Reads (statements (r.prepend (ts ++ us))) (joined first others) (r.prepend us)
  | .body stmt, ts =>
    ∀ us, Ends (r.prepend us) → (r.prepend us).peek? ≠ some (.symbol .semicolon) →
      Reads (statements (r.prepend (ts ++ us))) stmt (r.prepend us)

/-- What is spelled like a statement is read as it. -/
theorem stmtRead_of_spelled {tree : StmtTree} {ts : Phrase} (h : StmtSpelled tree ts) :
    StmtRead r tree ts := by
  induction h with
  | skip =>
    intro vs _
    rw [List.singleton_append, statement]
    exact Reads.bind (reads_next ..) fun _ => ⟨_, rfl⟩
  | @declare type name init ts us p q t htype hpos hinit =>
    intro vs hvs
    have hphrase : ts ++ ident name q :: mark .assign t :: us ++ vs =
        ts ++ ident name q :: mark .assign t :: (us ++ vs) := by simp
    rw [hphrase, statement_of_type htype.starts]
    exact reads_declaration htype hpos hinit hvs
  | @assign dst src ts us p q hdst hpos hsrc =>
    intro vs hvs
    have hphrase : ts ++ mark .assign q :: us ++ vs = ts ++ mark .assign q :: (us ++ vs) := by simp
    rw [hphrase, statement_of_place hdst.starts]
    exact reads_assignment hdst hpos hsrc hvs
  | read h =>
    intro vs hvs
    rw [List.cons_append, statement]
    refine Reads.bind (reads_next ..) fun h₁ => ?_
    exact Reads.bind (reads_place h hvs.bracket) fun _ => ⟨_, rfl⟩
  | free h | ret h | exit h | print h | println h =>
    intro vs hvs
    rw [List.cons_append, statement]
    refine Reads.bind (reads_next ..) fun h₁ => ?_
    exact Reads.bind (reads_expression h hvs) fun _ => ⟨_, rfl⟩
  | @branch cond yes no ts us vs p q t u hcond _ _ ihyes ihno =>
    intro ws _
    have hphrase : word .if_ p ::
        (ts ++ word .then_ q :: (us ++ word .else_ t :: (vs ++ [word .fi u]))) ++ ws =
      word .if_ p :: (ts ++ word .then_ q :: (us ++ word .else_ t :: (vs ++ word .fi u :: ws))) := by simp
    rw [hphrase, statement]
    refine Reads.bind (reads_next ..) fun h₁ => ?_
    refine Reads.bind (reads_expression hcond (ends_cons nofun rfl)) fun h₂ => ?_
    refine Reads.bind (reads_keyword ..) fun h₃ => ?_
    -- Both parts end because the words that follow are no semicolons.
    refine Reads.bind (ihyes _ (ends_cons nofun rfl) nofun) fun h₄ => ?_
    refine Reads.bind (reads_keyword ..) fun h₅ => ?_
    refine Reads.bind (ihno _ (ends_cons nofun rfl) nofun) fun h₆ => ?_
    exact Reads.bind (reads_keyword ..) fun _ => ⟨_, rfl⟩
  | @loop cond body ts us p q t hcond _ ih =>
    intro ws _
    have hphrase : word .while_ p :: (ts ++ word .do_ q :: (us ++ [word .done t])) ++ ws =
      word .while_ p :: (ts ++ word .do_ q :: (us ++ word .done t :: ws)) := by simp
    rw [hphrase, statement]
    refine Reads.bind (reads_next ..) fun h₁ => ?_
    refine Reads.bind (reads_expression hcond (ends_cons nofun rfl)) fun h₂ => ?_
    refine Reads.bind (reads_keyword ..) fun h₃ => ?_
    refine Reads.bind (ih _ (ends_cons nofun rfl) nofun) fun h₄ => ?_
    exact Reads.bind (reads_keyword ..) fun _ => ⟨_, rfl⟩
  | @scope body ts p q _ ih =>
    intro ws _
    have hphrase : word .begin p :: (ts ++ [word .end_ q]) ++ ws =
      word .begin p :: (ts ++ word .end_ q :: ws) := by simp
    rw [hphrase, statement]
    refine Reads.bind (reads_next ..) fun h₁ => ?_
    refine Reads.bind (ih _ (ends_cons nofun rfl) nofun) fun h₂ => ?_
    exact Reads.bind (reads_keyword ..) fun _ => ⟨_, rfl⟩
  | @one stmt ts _ ih =>
    intro vs hvs hlast
    have hnone := trails_noFurther hlast
    refine ⟨fun p => trails_furtherStatements (ih vs hvs) hnone, ?_⟩
    rintro first others heq
    cases heq
    exact reads_statements (ih vs hvs) hnone
  | @cons stmt stmts ts us p _ _ ih ihothers =>
    intro vs hvs hlast
    have hphrase : ts ++ mark .semicolon p :: us ++ vs = ts ++ mark .semicolon p :: (us ++ vs) := by simp
    rw [hphrase]
    -- The first statement ends at the semicolon, wherever the others end.
    have hfirst := ih (mark .semicolon p :: (us ++ vs)) (ends_cons nofun rfl)
    have hothers := (ihothers vs hvs hlast).1 p
    refine ⟨fun q => trails_furtherStatements hfirst hothers, ?_⟩
    rintro first others heq
    cases heq
    exact reads_statements hfirst hothers
  | single _ ih =>
    intro vs hvs hlast
    exact (ih vs hvs hlast).2 _ [] rfl
  | several _ ih =>
    intro vs hvs hlast
    exact (ih vs hvs hlast).2 _ (_ :: _) rfl

/-- A body ends where no semicolon follows. -/
theorem reads_body {stmt : Source.Stmt} {ts us : Phrase} (h : StmtSpelled (.body stmt) ts)
    (hus : Ends (r.prepend us)) (hlast : (r.prepend us).peek? ≠ some (.symbol .semicolon)) :
    Reads (statements (r.prepend (ts ++ us))) stmt (r.prepend us) :=
  stmtRead_of_spelled h us hus hlast

end Parser

end WaccArm
