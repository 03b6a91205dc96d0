import Colloquy.Proofs.Layout.Statement

/-!
# The lowering of statements lays them down

Every statement is lowered to words that `StmtAt` describes, and every block to words that `BlockAt`
describes.  Where control may go on behind a statement, some word waits for the label behind it: that is
why a section that control falls off has an end.
-/

namespace Colloquy

open Code

/-! ## Decoding statements -/

section

variable {S : Script} {s m u t n : Nat} {w : UInt32}

/-- The entry of a section is decoded with the word of its name. -/
theorem decode_entry (hw : S.words[s]? = some StatementCode.entry.word)
    (hn : Decoder.index S (s + 1) = .ok (n, s + 2)) (hi : S.words[s + 2]? = some w) :
    S.decodeStatement s = .ok (.entry n w.toNat, s + 3) := by
  rw [Script.decodeStatement, Decoder.statement,
    Decoder.bind_ok (Decoder.coded_ok hw (StatementCode.ofWord?_word _))]
  dsimp only
  rw [Decoder.bind_ok hn, Decoder.bind_ok (Decoder.index_ok hi)]
  rfl

/-- An end is one word. -/
theorem decode_finish (hw : S.words[s]? = some StatementCode.finish.word) :
    S.decodeStatement s = .ok (.finish, s + 1) := by
  rw [Script.decodeStatement, Decoder.statement,
    Decoder.bind_ok (Decoder.coded_ok hw (StatementCode.ofWord?_word _))]
  rfl

/-- A line is decoded from its three lists: speakers, segments and directives. -/
theorem decode_line {speakers : List SpeakerNode} {segments : List TextNode} {directives : List Nat}
    (hw : S.words[s]? = some StatementCode.line.word)
    (hn : Decoder.index S (s + 1) = .ok (n, s + 2))
    (hspeakers : Decoder.counted S (Decoder.speaker S) (s + 2) = .ok (speakers, m))
    (hsegments : Decoder.counted S (Decoder.segment S) m = .ok (segments, u))
    (hdirectives : Decoder.counted S (Decoder.expr S) u = .ok (directives, t)) :
    S.decodeStatement s = .ok (.line ⟨n, speakers, segments, directives⟩, t) := by
  rw [Script.decodeStatement, Decoder.statement,
    Decoder.bind_ok (Decoder.coded_ok hw (StatementCode.ofWord?_word _))]
  dsimp only
  rw [Decoder.bind_ok hn, Decoder.bind_ok hspeakers, Decoder.bind_ok hsegments,
    Decoder.bind_ok hdirectives]
  rfl

/-- An instruction is decoded with its expression behind it. -/
theorem decode_instruction (hw : S.words[s]? = some StatementCode.instruction.word)
    (hn : Decoder.index S (s + 1) = .ok (n, s + 2)) (he : S.exprEnd (s + 2) = .ok t) :
    S.decodeStatement s = .ok (.instruction n (s + 2), t) := by
  rw [Script.decodeStatement, Decoder.statement,
    Decoder.bind_ok (Decoder.coded_ok hw (StatementCode.ofWord?_word _))]
  dsimp only
  rw [Decoder.bind_ok hn, Decoder.bind_ok (Decoder.expr_ok he)]
  rfl

/-- A conditional is decoded with its branches. -/
theorem decode_conditional {branches : List (Nat × Nat)}
    (hw : S.words[s]? = some StatementCode.conditional.word)
    (hn : Decoder.index S (s + 1) = .ok (n, s + 2))
    (hbranches : Decoder.counted S (Decoder.branch S) (s + 2) = .ok (branches, t)) :
    S.decodeStatement s = .ok (.conditional n branches, t) := by
  rw [Script.decodeStatement, Decoder.statement,
    Decoder.bind_ok (Decoder.coded_ok hw (StatementCode.ofWord?_word _))]
  dsimp only
  rw [Decoder.bind_ok hn, Decoder.bind_ok hbranches]
  rfl

/-- A choice is decoded with its entries. -/
theorem decode_choice {items : List ItemNode} (hw : S.words[s]? = some StatementCode.choice.word)
    (hn : Decoder.index S (s + 1) = .ok (n, s + 2))
    (hitems : Decoder.counted S (Decoder.item S) (s + 2) = .ok (items, t)) :
    S.decodeStatement s = .ok (.choice n items, t) := by
  rw [Script.decodeStatement, Decoder.statement,
    Decoder.bind_ok (Decoder.coded_ok hw (StatementCode.ofWord?_word _))]
  dsimp only
  rw [Decoder.bind_ok hn, Decoder.bind_ok hitems]
  rfl

/-- Hash data are decoded with their keys. -/
theorem decode_hash {pairs : List PairNode} (hw : S.words[s]? = some StatementCode.hash.word)
    (hn : Decoder.index S (s + 1) = .ok (n, s + 2))
    (hpairs : Decoder.counted S (Decoder.pair S) (s + 2) = .ok (pairs, t)) :
    S.decodeStatement s = .ok (.hash n pairs, t) := by
  rw [Script.decodeStatement, Decoder.statement,
    Decoder.bind_ok (Decoder.coded_ok hw (StatementCode.ofWord?_word _))]
  dsimp only
  rw [Decoder.bind_ok hn, Decoder.bind_ok hpairs]
  rfl

/-- A speaker's data are decoded with the word of the speaker and the keys. -/
theorem decode_speaker {pairs : List PairNode} (hw : S.words[s]? = some StatementCode.speaker.word)
    (hn : Decoder.index S (s + 1) = .ok (n, s + 2)) (hi : S.words[s + 2]? = some w)
    (hpairs : Decoder.counted S (Decoder.pair S) (s + 3) = .ok (pairs, t)) :
    S.decodeStatement s = .ok (.speaker n w.toNat pairs, t) := by
  rw [Script.decodeStatement, Decoder.statement,
    Decoder.bind_ok (Decoder.coded_ok hw (StatementCode.ofWord?_word _))]
  dsimp only
  rw [Decoder.bind_ok hn, Decoder.bind_ok (Decoder.index_ok hi), Decoder.bind_ok hpairs]
  rfl

end

/-- A statement without blocks. -/
theorem StmtAt.simple {P : Float → Prop} {A : Artifact} {r : Registry} {x : Stmt} {node : Statement}
    {s next t : Nat} (hdecode : A.script.decodeStatement s = .ok (node, t))
    (hnode : NodeAt P A r (fun _ _ _ => False) next x node s t) (hblocks : x.blocks = []) :
    StmtAt P A r x s next t := by
  have hempty : BlocksAt P A r x.blocks [] next t t := by
    rw [hblocks]
    exact .nil next t
  exact .node hdecode (hnode.imp fun _ _ _ h => h.elim) hempty

namespace Lower

variable {P : Float → Prop} {r : Registry} {α : Type}

/-! ## Statements without blocks -/

/-- The first two words of a statement: its code and where it leads. -/
theorem header_lays {k : Lower α} {Q : Artifact → Nat → α → Nat → Prop} (w : UInt32) (l : Label)
    (hk : Lays P k Q) :
    Lays P (do
      emit w
      emitTarget l
      k) fun A s a t => A.script.words[s]? = some w ∧
        Decoder.index A.script (s + 1) = .ok (A.target l, s + 2) ∧ A.Leads l (A.target l) ∧
        Q A (s + 2) a t := by
  refine ((emit_lays w).bind fun _ => (emitTarget_lays l).bind fun _ => hk).mono ?_
  rintro A s a t hA _ _ ⟨_, _, ⟨hw, rfl⟩, _, _, ⟨⟨hl, hleads⟩, rfl⟩, hq⟩
  exact ⟨hw, Decoder.index_ofNat hl (hA.target_lt l), hleads, hq⟩

/-- A statement whose second word leads to a label waits for it, whatever is laid down behind. -/
theorem header_awaits {k : Lower α} {Q : Artifact → Nat → α → Nat → Prop} (w : UInt32) (l : Label)
    (hk : Lays P k Q) {d : Draft} (hd : d.Valid P) :
    ((do
      emit w
      emitTarget l
      k) d).2.Awaits d.assembly.offset l := by
  have hcode := emit_lays w d hd
  have htarget := emitTarget_lays l _ hcode.valid
  have hrest := hk _ htarget.valid
  exact ((emitTarget_awaits l _).lower hcode.step.offset_le).step hrest.step

/-- What the lowering of a statement does: it lays the statement down, and where control may go on
behind it, a word waits for the label there. -/
structure StmtLaid (P : Float → Prop) (r : Registry) (o : CompileOptions) (x : Stmt) (next : Label)
    (d : Draft) : Prop where
  emits : Emits P [] d (stmt r o next x d).2 fun A =>
    StmtAt P A r x d.assembly.offset (A.target next) (stmt r o next x d).2.assembly.offset
  awaits : Falls x → (stmt r o next x d).2.Awaits d.assembly.offset next

variable {o : CompileOptions} {next : Label} {d : Draft}

/-- An instruction is laid down, and control goes on behind it. -/
theorem instruction_laid (hr : r.Floats P) {e : Expr} (he : e.Floats P) (hd : d.Valid P) :
    StmtLaid P r o (.instruction e) next d := by
  have hexpr := expr_lays hr e he
  have hlays : Lays P (stmt r o next (.instruction e)) fun A s _ t =>
      StmtAt P A r (.instruction e) s (A.target next) t := by
    unfold stmt
    refine ((report_lays _).bind fun _ => header_lays _ next hexpr).mono ?_
    rintro A s _ t hA _ _ ⟨_, _, ⟨hcheck, rfl⟩, hw, hn, _, he⟩
    refine .simple (decode_instruction hw hn (he.exprEnd hA.addressable.words)) ?_ rfl
    exact .instruction ⟨he, hcheck⟩
  refine ⟨hlays d hd, ?_⟩
  intro _
  unfold stmt
  exact header_awaits _ next hexpr (report_lays _ d hd).valid

/-- A jump is laid down, and leads to its section. -/
theorem goto_laid {x : Ident} (hd : d.Valid P) : StmtLaid P r o (.goto x) next d := by
  have hlays : Lays P (stmt r o next (.goto x)) fun A s _ t =>
      StmtAt P A r (.goto x) s (A.target next) t := by
    unfold stmt
    refine ((sectionLabel_lays x).bind fun l => header_lays _ l
      ((emit_lays _).bind fun _ => emitTarget_lays l)).mono ?_
    rintro A s _ t hA _ _ ⟨l, _, ⟨hx, rfl⟩, hw, hn, hleads, _, _, ⟨hcode, rfl⟩, ⟨hplace, _⟩, rfl⟩
    have hnode := nodeAt_goto (endWithin A.script A.script.words.size) hcode hplace
    rw [UInt32.toNat_ofNat_of_lt' (hA.target_lt l)] at hnode
    refine .simple (decode_instruction hw hn (endWithin_of_nodeAt hnode)) ?_ rfl
    exact .goto ⟨l, hx, hleads⟩ hnode
  refine ⟨hlays d hd, ?_⟩
  intro h
  cases h

/-- An end is laid down, and leads nowhere. -/
theorem finish_laid {span : Span} (hd : d.Valid P) : StmtLaid P r o (.finish span) next d := by
  have hlays : Lays P (stmt r o next (.finish span)) fun A s _ t =>
      StmtAt P A r (.finish span) s (A.target next) t := by
    unfold stmt
    refine (emit_lays _).mono ?_
    rintro A s _ t _ _ _ ⟨hw, rfl⟩
    exact .simple (decode_finish hw) .finish rfl
  refine ⟨hlays d hd, ?_⟩
  intro h
  cases h

/-- Hash data are laid down, and control goes on behind them. -/
theorem hash_laid (hr : r.Floats P) {h : HashBlock} (hh : h.Meets (Expr.Floats P))
    (hd : d.Valid P) : StmtLaid P r o (.hash h) next d := by
  have hhash := hash_lays hr hh
  have hlays : Lays P (stmt r o next (.hash h)) fun A s _ t =>
      StmtAt P A r (.hash h) s (A.target next) t := by
    unfold stmt
    refine (header_lays _ next hhash).mono ?_
    rintro A s _ t _ _ _ ⟨hw, hn, _, pairs, hdecode, hpairs⟩
    exact .simple (decode_hash hw hn hdecode) (.hash hpairs) rfl
  refine ⟨hlays d hd, ?_⟩
  intro _
  unfold stmt
  exact header_awaits _ next hhash hd

/-- A speaker's data are laid down, and control goes on behind them. -/
theorem speaker_laid (hr : r.Floats P) {x : Ident} {h : HashBlock} {span : Span}
    (hh : h.Meets (Expr.Floats P)) (hd : d.Valid P) : StmtLaid P r o (.speaker x h span) next d := by
  have hhash := fun i => (emit_lays i).bind fun _ => hash_lays hr hh
  have hlays : Lays P (stmt r o next (.speaker x h span)) fun A s _ t =>
      StmtAt P A r (.speaker x h span) s (A.target next) t := by
    unfold stmt
    refine ((speaker_lays x.name).bind fun i => header_lays _ next (hhash i)).mono ?_
    rintro A s _ t _ _ _ ⟨i, _, ⟨hx, rfl⟩, hw, hn, _, _, _, ⟨hi, rfl⟩, pairs, hdecode, hpairs⟩
    exact .simple (decode_speaker hw hn hi hdecode) (.speaker hx hpairs) rfl
  refine ⟨hlays d hd, ?_⟩
  intro _
  unfold stmt
  exact header_awaits _ next (hhash _) (speaker_lays x.name d hd).valid

/-! ## Lines -/

/-- The words of a line behind its code and its target. -/
theorem lineParts_lays (hr : r.Floats P) {l : Line} (hl : l.Meets (Expr.Floats P)) :
    Lays P (do
      emitCount l.speakers.length
      l.speakers.forM (speakerRef r)
      segments r l.text
      mentionInline l.text
      emitCount l.directives.length
      l.directives.forM fun d => directive r d.val) fun A s _ t =>
        ∃ speakers segments directives m u,
          Decoder.counted A.script (Decoder.speaker A.script) s = .ok (speakers, m) ∧
          Decoder.counted A.script (Decoder.segment A.script) m = .ok (segments, u) ∧
          Decoder.counted A.script (Decoder.expr A.script) u = .ok (directives, t) ∧
          Row (SpeakerAt A r) l.speakers speakers (s + 1) m ∧
          Row (SegmentAt P A r) l.text segments (m + 1) u ∧
          (∀ x ∈ l.text.flatMap inlineTargets, ∃ label, A.Mentions x label) ∧
          Row (DirectiveAt P A r) l.directives directives (u + 1) t := by
  have hspeakers : Lays P (do
      emitCount l.speakers.length
      l.speakers.forM (speakerRef r)) _ := counted_lays fun x _ => speakerRef_lays x
  have hdirectives : Lays P (do
      emitCount l.directives.length
      l.directives.forM fun d => directive r d.val) _ :=
    counted_lays fun x hx => directive_lays hr (hl.directives x hx)
  refine (hspeakers.bind fun _ => (segments_lays hr hl.text).bind fun _ =>
    (mentionInline_lays l.text).bind fun _ => hdirectives).mono ?_
  rintro A s _ t _ _ _ ⟨_, m, ⟨speakers, hs, hspeakers⟩, _, u, ⟨texts, hx, htext⟩, _, _,
    ⟨hinline, rfl⟩, directives, hd, hdirectives⟩
  exact ⟨speakers, texts, directives, m, _, hs, hx, hd, hspeakers, htext, hinline, hdirectives⟩

/-- A line apart from its hash data. -/
theorem lineBody_lays (hr : r.Floats P) {l : Line} (hl : l.Meets (Expr.Floats P)) (next : Label) :
    Lays P (do
      emit StatementCode.line.word
      emitTarget next
      emitCount l.speakers.length
      l.speakers.forM (speakerRef r)
      segments r l.text
      mentionInline l.text
      emitCount l.directives.length
      l.directives.forM fun d => directive r d.val) fun A s _ t =>
        StmtAt P A r (.line { l with hash := none }) s (A.target next) t := by
  refine (header_lays _ next (lineParts_lays hr hl)).mono ?_
  rintro A s _ t _ _ _ ⟨hw, hn, _, speakers, segments, directives, m, u, hs, hx, hd, hspeakers, htext,
    hinline, hdirectives⟩
  refine .simple (decode_line hw hn hs hx hd) ?_ rfl
  exact .line rfl hspeakers htext hinline hdirectives

/-- The hash data of a line is a statement that leads to the line. -/
theorem lineHash_lays (hr : r.Floats P) {h : HashBlock} (hh : h.Meets (Expr.Floats P)) :
    Lays P (lineHash r (some h)) fun A s _ t => ∃ pairs,
      A.script.decodeStatement s = .ok (.hash t pairs, t) ∧
      Row (PairAt P A r) h.entries pairs (s + 3) t := by
  intro d hd
  have hmade := freshLabel_made hd
  have hfresh := freshLabel_lays d hd
  have hhead := header_lays StatementCode.hash.word (freshLabel d).1 (hash_lays hr hh) _ hfresh.valid
  have hlabel := (hmade.after hhead).fresh _ (List.mem_singleton_self _)
  have hbind := bindLabel_emits hhead.valid hlabel
  have hbound : Emits P [(freshLabel d).1] _ _ _ := hhead.seq hbind (by simp) (by simp)
  have hall : Emits P [] d _ _ := hfresh.seq hbound (by simp) fun m hm => .inr (hmade.new m hm)
  refine hall.mono ?_
  rintro A hA _ ⟨_, ⟨hw, hn, _, pairs, hdecode, hpairs⟩, htarget⟩
  rw [htarget] at hn
  exact ⟨pairs, decode_hash hw hn hdecode, hpairs⟩

/-- A line is laid down behind its hash data. -/
theorem line_laid (hr : r.Floats P) {l : Line} (hl : l.Meets (Expr.Floats P)) (hd : d.Valid P) :
    StmtLaid P r o (.line l) next d := by
  have hbody := lineBody_lays hr hl next
  have hparts := lineParts_lays hr hl
  have hhash : Lays P (lineHash r l.hash) fun A s _ t => (l.hash = none ∧ t = s) ∨
      ∃ h pairs, l.hash = some h ∧ A.script.decodeStatement s = .ok (.hash t pairs, t) ∧
        Row (PairAt P A r) h.entries pairs (s + 3) t := by
    cases hh : l.hash with
    | none => exact (Lays.pure ()).mono fun _ _ _ _ _ _ _ h => .inl ⟨rfl, h.2⟩
    | some h =>
      refine (lineHash_lays hr (hl.hash h hh)).mono ?_
      rintro A s _ t _ _ _ ⟨pairs, hdecode, hpairs⟩
      exact .inr ⟨h, pairs, rfl, hdecode, hpairs⟩
  have hlays : Lays P (stmt r o next (.line l)) fun A s _ t =>
      StmtAt P A r (.line l) s (A.target next) t := by
    unfold stmt
    refine (hhash.bind fun _ => hbody).mono ?_
    rintro A s _ t _ _ _ ⟨_, m, ⟨hnone, rfl⟩ | ⟨h, pairs, hsome, hdecode, hpairs⟩, hline⟩
    · obtain ⟨speakers, text, directives, hash, span⟩ := l
      obtain rfl : hash = none := hnone
      exact hline
    · exact .hashed hsome hdecode hpairs hline
  refine ⟨hlays d hd, fun _ => ?_⟩
  unfold stmt
  have hawaits := header_awaits StatementCode.line.word next hparts (hhash d hd).valid
  exact hawaits.lower (hhash d hd).step.offset_le

/-! ## Blocks -/

/-- A statement that is cut off is reported without a word. -/
theorem reportReach_lays (o : CompileOptions) (x : Stmt) (reach : Reach) :
    Lays P (reportReach o x reach) fun _ s _ t => t = s := by
  unfold reportReach
  cases reach with
  | cut terminatedAt =>
    dsimp only
    split
    · refine ((report_lays _).bind fun _ => Lays.pure _).mono ?_
      rintro A s _ t _ _ _ ⟨_, _, ⟨_, rfl⟩, _, rfl⟩
      rfl
    · exact (Lays.pure _).mono fun _ _ _ _ _ _ _ h => h.2
  | _ => exact (Lays.pure _).mono fun _ _ _ _ _ _ _ h => h.2

/-- What the lowering of a block does: it lays the block down and binds its entry.  Where control may
go on behind the block, words that wait for its entry, or for a statement in it, wait for its exit. -/
structure BlockLaid (P : Float → Prop) (r : Registry) (b : List Stmt) (entry exit : Label)
    (d d' : Draft) : Prop where
  emits : Emits P [entry] d d' fun A =>
    BlockAt P A r b d.assembly.offset (A.target entry) (A.target exit) d'.assembly.offset
  awaits : FallsOff b → ∀ lo ≤ d.assembly.offset, d.Awaits lo entry → d'.Awaits lo exit

/-- The statements of a block from one at `current` on. -/
def blockFrom (r : Registry) (o : CompileOptions) (exit current : Label) (x : Stmt) (xs : List Stmt)
    (reach : Reach) : Lower Unit := do
  let next ← successor exit xs
  bindLabel current
  stmt r o next x
  stmts r o exit xs next (reach.after x)

/-- The statements of a block are laid down one behind the other, by induction on those that follow: the
label of the next one is bound where the one before it stops. -/
theorem blockFrom_laid (exit : Label) {xs : List Stmt} :
    ∀ {x : Stmt} {current : Label} (reach : Reach) {d : Draft},
      (∀ y ∈ x :: xs, ∀ next d, d.Valid P → StmtLaid P r o y next d) → d.Valid P →
      d.Fresh current →
      Emits P [current] d (blockFrom r o exit current x xs reach d).2 (fun A =>
        BlockAt P A r (x :: xs) d.assembly.offset (A.target current) (A.target exit)
          (blockFrom r o exit current x xs reach d).2.assembly.offset) ∧
      (FallsOff (x :: xs) →
        (blockFrom r o exit current x xs reach d).2.Awaits d.assembly.offset exit) := by
  induction xs with
  | nil =>
    intro x current reach d hx hd hcurrent
    have hbind := bindLabel_emits hd hcurrent
    have hstmt := hx x (List.mem_singleton_self _) exit _ hbind.valid
    refine ⟨?_, ?_⟩
    · refine (hbind.seq hstmt.emits (by simp) (by simp)).mono ?_
      rintro A _ _ ⟨hentry, hstmt⟩
      rw [hentry]
      exact .cons hstmt (.nil _ _)
    · intro hfalls
      exact hstmt.awaits (fallsOff_singleton.mp hfalls)
  | cons y ys ih =>
    intro x current reach d hx hd hcurrent
    -- the label behind the statement is made first, so it is not the one that is bound here
    have hmade := freshLabel_made hd
    have hfresh := freshLabel_lays d hd
    have hnew := hmade.new _ (List.mem_singleton_self _)
    have hne : (freshLabel d).1 ∉ [current] := by
      intro hmem
      rw [List.mem_singleton.mp hmem] at hnew
      have := hcurrent.lt
      omega
    have hbind := bindLabel_emits hfresh.valid (hcurrent.step hfresh.step (by simp))
    have hstmt := hx x (List.mem_cons_self ..) (freshLabel d).1 _ hbind.valid
    have hreport := reportReach_lays o y (reach.after x) _ hstmt.emits.valid
    have hnext := (((hmade.fresh _ (List.mem_singleton_self _)).step hbind.step hne).step
      hstmt.emits.step (by simp)).step hreport.step (by simp)
    obtain ⟨hrest, hawaits⟩ := ih (reportReach o y (reach.after x) _).1
      (fun z hz => hx z (List.mem_cons_of_mem _ hz)) hreport.valid hnext
    have htail : Emits P [(freshLabel d).1] _ _ _ := hreport.seq hrest (by simp) (by simp)
    have hstmts : Emits P [(freshLabel d).1] _ _ _ := hstmt.emits.seq htail (by simp) (by simp)
    have hbound : Emits P [current, (freshLabel d).1] _ _ _ := hbind.seq hstmts (by simp) (by simp)
    refine ⟨?_, ?_⟩
    · refine (hfresh.seq hbound (by simp) ?_).mono ?_
      · intro m hm
        rcases List.mem_cons.mp hm with rfl | hm
        · exact .inl (List.mem_singleton_self _)
        · exact .inr (hmade.new m hm)
      · rintro A _ _ ⟨_, hentry, hstmt, hoffset, hrest⟩
        rw [hoffset] at hrest
        rw [hentry]
        exact .cons hstmt hrest
    · intro hfalls
      refine (hawaits (fallsOff_cons_cons.mp hfalls)).lower ?_
      exact ((hfresh.step.offset_le.trans hbind.step.offset_le).trans
        hstmt.emits.step.offset_le).trans hreport.step.offset_le

/-- A block is laid down if its statements are. -/
theorem block_laid (exit : Label) {b : List Stmt} {entry : Label}
    (hb : ∀ x ∈ b, ∀ next d, d.Valid P → StmtLaid P r o x next d) (hd : d.Valid P)
    (hentry : d.Fresh entry) :
    BlockLaid P r b entry exit d (block r o entry exit b d).2 := by
  cases b with
  | nil =>
    unfold block
    refine ⟨(redirect_emits hd hentry).mono ?_, ?_⟩
    · intro A _ _ h
      rw [h, redirect_offset]
      exact .nil _ _
    · intro _ lo _ h
      exact redirect_awaits hd hentry h
  | cons x xs =>
    have hlaid := blockFrom_laid exit .reached hb hd hentry
    unfold block
    refine ⟨hlaid.1, ?_⟩
    intro hfalls lo hlo _
    exact (hlaid.2 hfalls).lower hlo

/-! ## Blocks inside a statement -/

/-- Blocks one after another, each between its labels. -/
def blocks (r : Registry) (o : CompileOptions) : List (List Stmt) → List BodyLabels → Lower Unit
  | b :: bs, l :: ls => do
    block r o l.entry l.exit b
    blocks r o bs ls
  | _, _ => return

theorem blocks_nil (r : Registry) (o : CompileOptions) (bs : List (List Stmt)) :
    blocks r o bs [] = pure () := by
  cases bs <;> rfl

/-- Blocks are lowered with the labels in front, and further blocks with those that are left. -/
theorem blocks_append (r : Registry) (o : CompileOptions) (bs cs : List (List Stmt))
    (ls : List BodyLabels) :
    blocks r o (bs ++ cs) ls
      = blocks r o bs ls >>= fun _ => blocks r o cs (ls.drop bs.length) := by
  induction bs generalizing ls with
  | nil => rfl
  | cons b bs ih =>
    cases ls with
    | nil => rw [blocks_nil, blocks_nil, List.drop_nil, blocks_nil, pure_bind]
    | cons l ls =>
      rw [List.cons_append, blocks, blocks, ih, bind_assoc, List.length_cons, List.drop_succ_cons]

/-- Blocks with their own labels and further blocks with theirs are lowered one behind the other. -/
theorem blocks_append_append (r : Registry) (o : CompileOptions) {bs : List (List Stmt)}
    {ls : List BodyLabels} (h : bs.length = ls.length) (cs : List (List Stmt))
    (ms : List BodyLabels) :
    blocks r o (bs ++ cs) (ls ++ ms) = blocks r o bs ls >>= fun _ => blocks r o cs ms := by
  induction bs generalizing ls with
  | nil =>
    obtain rfl := List.length_eq_zero_iff.mp h.symm
    rfl
  | cons b bs ih =>
    cases ls with
    | nil => cases h
    | cons l ls =>
      rw [List.cons_append, List.cons_append, blocks, blocks, ih (by simpa using h), bind_assoc]

/-- The blocks of the branches of a conditional all have the same exit. -/
theorem branchBodies_eq (r : Registry) (o : CompileOptions) (exit : Label)
    (bs : List (Expr × List Stmt)) (ls : List Label) :
    branchBodies r o exit bs ls
      = blocks r o (bs.map Prod.snd) (ls.map fun l => (⟨l, exit⟩ : BodyLabels)) := by
  induction bs generalizing ls with
  | nil =>
    unfold branchBodies
    rfl
  | cons b bs ih =>
    cases ls with
    | nil =>
      unfold branchBodies
      rfl
    | cons l ls =>
      unfold branchBodies
      rw [ih]
      rfl

/-- A block that is not there behind the branches is lowered as an empty one. -/
theorem otherwiseBody_eq (r : Registry) (o : CompileOptions) (entry exit : Label)
    (b : Option (List Stmt)) : otherwiseBody r o entry exit b = block r o entry exit (b.getD []) := by
  cases b with
  | none => rw [otherwiseBody, Option.getD_none, block]
  | some b => rw [otherwiseBody, Option.getD_some]

/-- Emit blocks at the first of the labels and return the labels left. -/
def consume (r : Registry) (o : CompileOptions) (bodies : List (Option Ident × List Stmt))
    (ls : List BodyLabels) : Lower (List BodyLabels) := do
  blocks r o (bodies.map Prod.snd) ls
  return ls.drop bodies.length

/-- Bodies one list behind another use up their labels in this order. -/
theorem consume_append (r : Registry) (o : CompileOptions)
    (xs ys : List (Option Ident × List Stmt)) (ls : List BodyLabels) :
    consume r o (xs ++ ys) ls = consume r o xs ls >>= consume r o ys := by
  simp only [consume, List.map_append, blocks_append, bind_assoc, pure_bind, List.length_map,
    List.drop_drop, List.length_append]

mutual

/-- The bodies in an item are lowered in the order in which they are listed, and use up one pair of labels
each. -/
theorem itemBodies_eq (r : Registry) (o : CompileOptions) : (i : ChoiceItem) →
    (ls : List BodyLabels) → itemBodies r o i ls = consume r o i.bodies ls
  | .option _ _ target body _, ls => by
    rw [itemBodies, ChoiceItem.bodies]
    cases body with
    | none =>
      unfold optionBody
      rfl
    | some b =>
      cases ls with
      | nil =>
        unfold optionBody
        rfl
      | cons l ls =>
        unfold optionBody
        rfl
  | .filter branches otherwise _, ls => by
    rw [itemBodies, ChoiceItem.bodies, consume_append, filterBodies_eq r o branches ls]
    congr 1
    funext ls
    exact elseBodies_eq r o otherwise ls

/-- So are those in items. -/
theorem optionBodies_eq (r : Registry) (o : CompileOptions) : (is : List ChoiceItem) →
    (ls : List BodyLabels) → optionBodies r o is ls = consume r o (ChoiceItem.allBodies is) ls
  | [], ls => by
    unfold optionBodies ChoiceItem.allBodies
    rfl
  | i :: is, ls => by
    rw [optionBodies, ChoiceItem.allBodies, consume_append, itemBodies_eq r o i ls]
    congr 1
    funext ls
    exact optionBodies_eq r o is ls

/-- So are those in the branches of a filter. -/
theorem filterBodies_eq (r : Registry) (o : CompileOptions) :
    (bs : List (Expr × List ChoiceItem)) → (ls : List BodyLabels) →
      filterBodies r o bs ls = consume r o (ChoiceItem.branchBodies bs) ls
  | [], ls => by
    unfold filterBodies ChoiceItem.branchBodies
    rfl
  | (e, is) :: rest, ls => by
    rw [filterBodies, ChoiceItem.branchBodies, consume_append, optionBodies_eq r o is ls]
    congr 1
    funext ls
    exact filterBodies_eq r o rest ls

/-- So are those behind the branches of a filter. -/
theorem elseBodies_eq (r : Registry) (o : CompileOptions) : (b : Option (List ChoiceItem)) →
    (ls : List BodyLabels) → elseBodies r o b ls = consume r o (ChoiceItem.otherwiseBodies b) ls
  | none, ls => by
    unfold elseBodies ChoiceItem.otherwiseBodies
    rfl
  | some is, ls => by
    rw [elseBodies, ChoiceItem.otherwiseBodies]
    exact optionBodies_eq r o is ls

end

/-- A block between the offsets that its labels lead to. -/
def BlockBetween (P : Float → Prop) (A : Artifact) (r : Registry) (b : List Stmt) (l : BodyLabels)
    (s t : Nat) : Prop :=
  BlockAt P A r b s (A.target l.entry) (A.target l.exit) t

/-- What the lowering of blocks does, see `BlockLaid`. -/
structure BlocksLaid (P : Float → Prop) (r : Registry) (bs : List (List Stmt))
    (ls : List BodyLabels) (d d' : Draft) : Prop where
  emits : Emits P (ls.map BodyLabels.entry) d d' fun A =>
    Row (BlockBetween P A r) bs ls d.assembly.offset d'.assembly.offset
  awaits : ∀ b l, (b, l) ∈ bs.zip ls → FallsOff b → ∀ lo ≤ d.assembly.offset,
    d.Awaits lo l.entry → d'.Awaits lo l.exit

/-- Blocks are laid down one behind the other, each from its own entry: what one lays down keeps the
entries of the others fresh. -/
theorem blocks_laid {bs : List (List Stmt)} {ls : List BodyLabels} (hlength : bs.length = ls.length)
    (hb : ∀ b ∈ bs, ∀ x ∈ b, ∀ next d, d.Valid P → StmtLaid P r o x next d)
    (hnodup : (ls.map BodyLabels.entry).Nodup) (hd : d.Valid P)
    (hfresh : ∀ l ∈ ls, d.Fresh l.entry) :
    BlocksLaid P r bs ls d (blocks r o bs ls d).2 := by
  induction bs generalizing ls d with
  | nil =>
    obtain rfl := List.length_eq_zero_iff.mp hlength.symm
    exact ⟨⟨.refl _ d, hd, fun _ _ _ => .nil _⟩, by simp⟩
  | cons b bs ih =>
    cases ls with
    | nil => cases hlength
    | cons l ls =>
      rw [List.map_cons, List.nodup_cons] at hnodup
      have hfirst := block_laid l.exit (hb b (List.mem_cons_self ..)) hd
        (hfresh l (List.mem_cons_self ..))
      have hnot : ∀ m ∈ ls, m.entry ∉ [l.entry] := by
        intro m hm heq
        rw [← List.mem_singleton.mp heq] at hnodup
        exact hnodup.1 (List.mem_map_of_mem hm)
      have hrest := ih (by simpa using hlength) (fun c hc => hb c (List.mem_cons_of_mem _ hc))
        hnodup.2 hfirst.emits.valid fun m hm =>
          (hfresh m (List.mem_cons_of_mem _ hm)).step hfirst.emits.step (hnot m hm)
      refine ⟨?_, ?_⟩
      · refine (hfirst.emits.seq hrest.emits ?_ ?_).mono ?_
        · intro m hm
          exact List.mem_cons.mpr (.inl (List.mem_singleton.mp hm))
        · intro m hm
          exact .inl (List.mem_cons_of_mem _ hm)
        · rintro A _ _ ⟨hblock, hblocks⟩
          exact .cons hblock hblocks
      · intro c m hmem hfalls lo hlo hawaits
        rcases List.mem_cons.mp hmem with heq | hmem
        · cases heq
          exact (hfirst.awaits hfalls lo hlo hawaits).step hrest.emits.step
        · exact hrest.awaits c m hmem hfalls lo (hlo.trans hfirst.emits.step.offset_le)
            (hawaits.step hfirst.emits.step)

/-! ## Conditionals -/

/-- Labels are taken without a word. -/
theorem freshLabels_lays (n : Nat) :
    Lays P (freshLabels n) fun _ s _ t => t = s := by
  induction n with
  | zero => exact (Lays.pure []).mono fun _ _ _ _ _ _ _ h => h.2
  | succ n ih =>
    refine (freshLabel_lays.bind fun l => ih.bind fun ls => Lays.pure (l :: ls)).mono ?_
    rintro A s ls t _ _ _ ⟨l, _, rfl, ms, _, rfl, _, rfl⟩
    rfl

theorem length_freshLabels (n : Nat) (d : Draft) : (freshLabels n d).1.length = n := by
  induction n generalizing d with
  | zero => rfl
  | succ n ih => exact congrArg (· + 1) (ih (freshLabel d).2)

/-- Labels that are taken are new and apart. -/
theorem freshLabels_made (n : Nat) {d : Draft} (hd : d.Valid P) :
    Made d (freshLabels n d).2 (freshLabels n d).1 := by
  induction n generalizing d with
  | zero => exact (Promised.nil d d).toMade
  | succ n ih =>
    have hfresh := freshLabel_lays d hd
    exact (freshLabel_made hd).append (ih hfresh.valid) hfresh (freshLabels_lays n _ hfresh.valid)

/-- The conditions of a statement are laid down with the places where their blocks are entered. -/
theorem conditions_lays (hr : r.Floats P) {bs : List (Expr × List Stmt)} {ls : List Label}
    (hlength : bs.length = ls.length) (hb : ∀ b ∈ bs, b.1.Floats P) :
    Lays P (conditions r bs ls) fun A s _ t => ∀ B : Option Ident → List Stmt → Nat → Prop,
      (∀ p ∈ (bs.map Prod.snd).zip ls, B none p.1 (A.target p.2)) →
      ∃ nodes, Row (Reads (Decoder.branch A.script) (BranchAt P A r B)) bs nodes s t := by
  induction bs generalizing ls with
  | nil =>
    refine (Lays.pure ()).mono ?_
    rintro A s _ t _ _ _ ⟨_, rfl⟩ B _
    exact ⟨[], .nil _⟩
  | cons b bs ih =>
    cases ls with
    | nil => cases hlength
    | cons l ls =>
      obtain ⟨e, b⟩ := b
      refine ((report_lays _).bind fun _ => (expr_lays hr e (hb _ (List.mem_cons_self ..))).bind
        fun _ => (emitTarget_lays l).bind fun _ => ih (by simpa using hlength)
          fun c hc => hb c (List.mem_cons_of_mem _ hc)).mono ?_
      rintro A s _ t hA _ _ ⟨_, _, ⟨hcheck, rfl⟩, _, m, he, _, _, ⟨⟨hl, _⟩, rfl⟩, hrest⟩ B hB
      obtain ⟨nodes, hnodes⟩ := hrest B fun p hp => hB p (List.mem_cons_of_mem _ hp)
      have hlt := he.bounds.1
      refine ⟨_, .cons ⟨by omega, ?_, .intro ⟨he, hcheck⟩ (hB _ (List.mem_cons_self ..))⟩ hnodes⟩
      rw [Decoder.branch, Decoder.bind_ok (Decoder.expr_ok (he.exprEnd hA.addressable.words)),
        Decoder.bind_ok (Decoder.index_ofNat hl (hA.target_lt l))]
      rfl

/-- Among the conditions a word waits for the label of each branch. -/
theorem conditions_awaits (hr : r.Floats P) {bs : List (Expr × List Stmt)} {ls : List Label}
    (hlength : bs.length = ls.length) (hb : ∀ b ∈ bs, b.1.Floats P) {d : Draft} (hd : d.Valid P) :
    ∀ l ∈ ls, (conditions r bs ls d).2.Awaits d.assembly.offset l := by
  induction bs generalizing ls d with
  | nil =>
    obtain rfl := List.length_eq_zero_iff.mp hlength.symm
    simp
  | cons b bs ih =>
    cases ls with
    | nil => cases hlength
    | cons l ls =>
      obtain ⟨e, b⟩ := b
      have hb' : ∀ c ∈ bs, c.1.Floats P := fun c hc => hb c (List.mem_cons_of_mem _ hc)
      have hcheck := report_lays (Typing.exprOf r e .bool) d hd
      have hexpr := expr_lays hr e (hb _ (List.mem_cons_self ..)) _ hcheck.valid
      have htarget := emitTarget_lays l _ hexpr.valid
      have hlength' : bs.length = ls.length := by simpa using hlength
      have hrest := conditions_lays hr hlength' hb' _ htarget.valid
      intro m hm
      rcases List.mem_cons.mp hm with rfl | hm
      · exact ((emitTarget_awaits m _).lower hexpr.step.offset_le).step hrest.step
      · have := ih hlength' hb' htarget.valid m hm
        exact this.lower (hexpr.step.offset_le.trans htarget.step.offset_le)

/-- The blocks behind a statement, between labels that lead on to `next` or to sections, lead where
the source says. -/
theorem blocksAt_of_row {A : Artifact} {next : Label} {bodies : List (Option Ident × List Stmt)}
    {ls : List BodyLabels} {s t : Nat}
    (hrow : Row (BlockBetween P A r) (bodies.map Prod.snd) ls s t)
    (hexits : List.Forall₂ (BodyExit A next) bodies ls)
    (hleads : ∀ x b l, ((some x, b), l) ∈ bodies.zip ls → FallsOff b →
      A.Leads l.exit (A.target l.exit)) :
    BlocksAt P A r bodies (ls.map fun l => A.target l.entry) (A.target next) s t := by
  induction hexits generalizing s with
  | nil =>
    cases hrow
    exact .nil _ _
  | @cons body l bodies ls hexit _ ih =>
    obtain ⟨y, b⟩ := body
    cases hrow with
    | cons hblock hrest =>
      refine .cons hblock ?_ (ih hrest fun x c m hm => hleads x c m (List.mem_cons_of_mem _ hm))
      cases y with
      | none => exact congrArg A.target (hexit.1 rfl)
      | some x =>
        intro hfalls
        exact ⟨l.exit, hexit.2 x rfl, hleads x b l (List.mem_cons_self ..) hfalls⟩

/-- The labels of a conditional's blocks. -/
def conditionalLabels (next : Label) (entries : List Label) (last : Label) : List BodyLabels :=
  entries.map (fun l => ⟨l, next⟩) ++ [⟨last, next⟩]

theorem conditionalLabels_entry (next : Label) (entries : List Label) (last : Label) :
    (conditionalLabels next entries last).map BodyLabels.entry = entries ++ [last] := by
  rw [conditionalLabels, List.map_append, List.map_map]
  exact congrArg (· ++ [last]) (List.map_id _)

/-- A conditional once its labels are there. -/
def conditionalFrom (r : Registry) (o : CompileOptions) (next : Label)
    (branches : List (Expr × List Stmt)) (otherwise : Option (List Stmt)) (entries : List Label)
    (last : Label) : Lower Unit := do
  emit StatementCode.conditional.word
  emitTarget last
  emitCount branches.length
  conditions r branches entries
  branchBodies r o next branches entries
  otherwiseBody r o last next otherwise

theorem map_snd_blocks (branches : List (Expr × List Stmt)) (otherwise : Option (List Stmt))
    (span : Span) : (Stmt.conditional branches otherwise span).blocks.map Prod.snd
      = branches.map Prod.snd ++ [otherwise.getD []] := by
  simp [Stmt.blocks, Function.comp_def]

/-- The words of a conditional in front of its blocks, and the blocks. -/
theorem conditionalFrom_apply {branches : List (Expr × List Stmt)} {otherwise : Option (List Stmt)}
    {entries : List Label} (last : Label) (span : Span) (hlength : branches.length = entries.length)
    (d : Draft) :
    (conditionalFrom r o next branches otherwise entries last d).2
      = (blocks r o ((Stmt.conditional branches otherwise span).blocks.map Prod.snd)
          (conditionalLabels next entries last) ((do
            emit StatementCode.conditional.word
            emitTarget last
            emitCount branches.length
            conditions r branches entries) d).2).2 := by
  rw [map_snd_blocks, conditionalLabels, blocks_append_append r o (by simpa using hlength),
    ← branchBodies_eq]
  show (otherwiseBody r o last next otherwise _).2 = _
  rw [otherwiseBody_eq]
  rfl

/-- Each entry of a list stands beside one of another list as long. -/
theorem exists_mem_zip {α β : Type} {as : List α} {bs : List β} (h : as.length = bs.length) {a : α}
    (ha : a ∈ as) : ∃ b ∈ bs, (a, b) ∈ as.zip bs := by
  induction as generalizing bs with
  | nil => cases ha
  | cons a' as ih =>
    cases bs with
    | nil => cases h
    | cons b bs =>
      rcases List.mem_cons.mp ha with rfl | ha
      · exact ⟨b, List.mem_cons_self .., List.mem_cons_self ..⟩
      · obtain ⟨c, hc, hmem⟩ := ih (by simpa using h) ha
        exact ⟨c, List.mem_cons_of_mem _ hc, List.mem_cons_of_mem _ hmem⟩

section

variable {branches : List (Expr × List Stmt)} {otherwise : Option (List Stmt)} {span : Span}
  {entries : List Label} {last : Label}

/-- All blocks of a conditional lead on behind it. -/
theorem conditionalLabels_exits (A : Artifact) (next last : Label) (otherwise : Option (List Stmt))
    (span : Span) (hlength : branches.length = entries.length) :
    List.Forall₂ (BodyExit A next) (Stmt.conditional branches otherwise span).blocks
      (conditionalLabels next entries last) := by
  refine List.rel_append ?_ (.cons ⟨fun _ => rfl, by simp⟩ .nil)
  induction branches generalizing entries with
  | nil =>
    obtain rfl := List.length_eq_zero_iff.mp hlength.symm
    exact .nil
  | cons b branches ih =>
    cases entries with
    | nil => cases hlength
    | cons l entries => exact .cons ⟨fun _ => rfl, by simp⟩ (ih (by simpa using hlength))

/-- The blocks of branches are entered at the first labels, the last block at the last. -/
theorem mem_zip_conditional (f : Label → Nat) (next last : Label) (otherwise : Option (List Stmt))
    (span : Span) (hlength : branches.length = entries.length) :
    (∀ p ∈ (branches.map Prod.snd).zip entries, ((none, p.1), f p.2) ∈
      (Stmt.conditional branches otherwise span).blocks.zip
        ((conditionalLabels next entries last).map fun l => f l.entry)) ∧
    ((none, otherwise.getD []), f last) ∈
      (Stmt.conditional branches otherwise span).blocks.zip
        ((conditionalLabels next entries last).map fun l => f l.entry) := by
  induction branches generalizing entries with
  | nil =>
    obtain rfl := List.length_eq_zero_iff.mp hlength.symm
    exact ⟨by simp, List.mem_cons_self ..⟩
  | cons b branches ih =>
    cases entries with
    | nil => cases hlength
    | cons l entries =>
      have hlength' : branches.length = entries.length := by simpa using hlength
      obtain ⟨hbranches, hlast⟩ := ih hlength'
      refine ⟨?_, List.mem_cons_of_mem _ hlast⟩
      intro p hp
      rcases List.mem_cons.mp hp with rfl | hp
      · exact List.mem_cons_self ..
      · exact List.mem_cons_of_mem _ (hbranches p hp)

/-- In front of its blocks a conditional waits for the label of each branch. -/
theorem conditionalHead_awaits (last : Label) (hr : r.Floats P) (hlength : branches.length = entries.length)
    (hb : ∀ b ∈ branches, b.1.Floats P) (hd : d.Valid P) :
    ∀ l ∈ entries, ((do
      emit StatementCode.conditional.word
      emitTarget last
      emitCount branches.length
      conditions r branches entries) d).2.Awaits d.assembly.offset l := by
  have hcode := emit_lays StatementCode.conditional.word d hd
  have htarget := emitTarget_lays last _ hcode.valid
  have hcount := emitCount_lays branches.length _ htarget.valid
  intro l hl
  refine (conditions_awaits hr hlength hb hcount.valid l hl).lower ?_
  exact (hcode.step.offset_le.trans htarget.step.offset_le).trans hcount.step.offset_le

/-- A conditional is laid down once its labels are taken: first its conditions, and then its blocks behind
them. -/
theorem conditionalFrom_laid (next : Label) (span : Span) (hr : r.Floats P)
    (hlength : branches.length = entries.length)
    (hb : ∀ b ∈ branches, b.1.Floats P)
    (hx : ∀ p ∈ (Stmt.conditional branches otherwise span).blocks, ∀ x ∈ p.2, ∀ next d,
      d.Valid P → StmtLaid P r o x next d)
    (hd : d.Valid P) (hnodup : (entries ++ [last]).Nodup)
    (hfresh : ∀ l ∈ entries ++ [last], d.Fresh l) :
    Emits P (entries ++ [last]) d
      (conditionalFrom r o next branches otherwise entries last d).2 (fun A =>
        StmtAt P A r (.conditional branches otherwise span) d.assembly.offset (A.target next)
          (conditionalFrom r o next branches otherwise entries last d).2.assembly.offset) ∧
    (Falls (.conditional branches otherwise span) →
      (conditionalFrom r o next branches otherwise entries last d).2.Awaits d.assembly.offset
        next) := by
  have hconditions := conditions_lays hr hlength hb
  have hbody := (emitCount_lays branches.length).bind fun _ => hconditions
  have hhead := header_lays StatementCode.conditional.word last hbody d hd
  have hlast := header_awaits StatementCode.conditional.word last hbody hd
  have hentries := conditionalHead_awaits last hr hlength hb hd
  rw [conditionalFrom_apply last span hlength]
  -- only these three facts about the head are used behind it
  generalize ((do
      emit StatementCode.conditional.word
      emitTarget last
      emitCount branches.length
      conditions r branches entries) d).2 = d₁ at hhead hlast hentries ⊢
  have hzip : ((Stmt.conditional branches otherwise span).blocks.map Prod.snd).length
      = (conditionalLabels next entries last).length := by
    rw [map_snd_blocks]
    simp [conditionalLabels, hlength]
  have hlaid : BlocksLaid P r ((Stmt.conditional branches otherwise span).blocks.map Prod.snd)
      (conditionalLabels next entries last) d₁ (blocks r o
        ((Stmt.conditional branches otherwise span).blocks.map Prod.snd)
        (conditionalLabels next entries last) d₁).2 := by
    refine blocks_laid hzip ?_ (by rwa [conditionalLabels_entry]) hhead.valid ?_
    · intro b hb
      obtain ⟨p, hp, rfl⟩ := List.mem_map.mp hb
      exact hx p hp
    · intro l hl
      have hmem := List.mem_map_of_mem (f := BodyLabels.entry) hl
      rw [conditionalLabels_entry] at hmem
      exact (hfresh _ hmem).step hhead.step (by simp)
  refine ⟨?_, ?_⟩
  · rw [← conditionalLabels_entry next entries last]
    refine (hhead.seq hlaid.emits (by simp) fun l hl => .inl hl).mono ?_
    rintro A hA hsize ⟨⟨hw, hn, _, _, _, ⟨hcount, rfl⟩, hconditions⟩, hrow⟩
    have hblocks := blocksAt_of_row hrow (conditionalLabels_exits A next last otherwise span hlength)
      fun x b l hmem => absurd (List.of_mem_zip hmem).1 (by simp [Stmt.blocks])
    obtain ⟨hbranches, hlast⟩ := mem_zip_conditional A.target next last otherwise span hlength
    obtain ⟨nodes, hnodes⟩ := hconditions (fun y b n => ((y, b), n) ∈
      (Stmt.conditional branches otherwise span).blocks.zip
        ((conditionalLabels next entries last).map fun l => A.target l.entry)) hbranches
    have hcounted := counted_ok hA (hlaid.emits.step.offset_le.trans hsize) hcount hnodes
    refine .node (decode_conditional hw hn hcounted) (.conditional ?_ hlast) hblocks
    exact hnodes.imp fun _ _ _ _ _ h => h.meaning
  · -- control falls off a branch, or off the block behind all of them
    intro hfalls
    obtain ⟨b, hb, hoff⟩ := falls_conditional.mp hfalls
    obtain ⟨l, hl, hmem⟩ := exists_mem_zip hzip (List.mem_map_of_mem (f := Prod.snd) hb)
    rcases List.mem_append.mp hl with hl | hl
    · obtain ⟨m, hm, rfl⟩ := List.mem_map.mp hl
      exact hlaid.awaits b _ hmem hoff _ hhead.step.offset_le (hentries m hm)
    · obtain rfl := List.mem_singleton.mp hl
      exact hlaid.awaits b _ hmem hoff _ hhead.step.offset_le hlast

/-- A conditional is laid down if its blocks are. -/
theorem conditional_laid (hr : r.Floats P) (hb : ∀ b ∈ branches, b.1.Floats P)
    (hx : ∀ p ∈ (Stmt.conditional branches otherwise span).blocks, ∀ x ∈ p.2, ∀ next d,
      d.Valid P → StmtLaid P r o x next d)
    (hd : d.Valid P) : StmtLaid P r o (.conditional branches otherwise span) next d := by
  have hlabels := freshLabels_lays branches.length d hd
  have hlast := freshLabel_lays _ hlabels.valid
  have hmade := (freshLabels_made branches.length hd).append (freshLabel_made hlabels.valid) hlabels
    hlast
  have hlength := length_freshLabels branches.length d
  have hstart := hlabels.step.offset_le.trans hlast.step.offset_le
  have hrun : (stmt r o next (.conditional branches otherwise span) d).2
      = (conditionalFrom r o next branches otherwise (freshLabels branches.length d).1
        (freshLabel (freshLabels branches.length d).2).1
        (freshLabel (freshLabels branches.length d).2).2).2 := by
    unfold stmt
    rfl
  have hall : Emits P [] d _ _ := hlabels.seq hlast (by simp) (by simp)
  obtain ⟨hemits, hawaits⟩ := conditionalFrom_laid next span hr hlength.symm hb hx hlast.valid
    hmade.nodup hmade.fresh
  refine ⟨?_, ?_⟩
  · rw [hrun]
    refine (hall.seq hemits (by simp) fun l hl => .inr (hmade.new l hl)).mono ?_
    rintro A _ _ ⟨⟨hfirst, hsecond⟩, hstmt⟩
    rwa [hsecond, hfirst] at hstmt
  · intro hfalls
    rw [hrun]
    exact (hawaits hfalls).lower hstart

end

/-! ## Choices -/

/-- The entries of a choice behind their number. -/
def itemList (r : Registry) (next : Label) (is : List ChoiceItem) : Lower ItemList := do
  let count ← fetch Assembly.reserve
  let list ← items r next is
  update (·.fill count (UInt32.ofNat list.count))
  return list

/-- The items of a choice are laid down behind a word that counts their entries. -/
theorem itemList_lays (hr : r.Floats P) (next : Label) {is : List ChoiceItem}
    (his : ChoiceItem.AllMeet (Expr.Floats P) F is) :
    Lays P (itemList r next is) fun A s list t =>
      A.Holds s list.count ∧ Offers P r next is A (s + 1) list t := by
  have hstop : ∀ d, (itemList r next is d).2.assembly.offset
      = (items r next is (fetch Assembly.reserve d).2).2.assembly.offset :=
    fun d => Array.size_setIfInBounds
  intro d hd
  have hstart : (fetch Assembly.reserve d).2.assembly.offset = d.assembly.offset + 1 :=
    Array.size_push _
  have hitems := items_lays hr next is his _ (emit_lays 0xFFFFFFFF d hd).valid
  refine (reserve_fill (UInt32.ofNat (itemList r next is d).1.count) hd hitems).mono ?_
  intro A _ _ hq
  show A.Holds _ _ ∧ Offers P r next is A (d.assembly.offset + 1) _ _
  rw [hstop, ← hstart]
  exact hq

/-- The entries of their bodies are promised labels. -/
theorem itemList_promised (hr : r.Floats P) (next : Label) {is : List ChoiceItem}
    (his : ChoiceItem.AllMeet (Expr.Floats P) F is) (hd : d.Valid P) :
    Promised d (itemList r next is d).2 (itemList r next is d).1.entries := by
  have hreserve := emit_lays 0xFFFFFFFF d hd
  exact fill_promised _ _ (.before hreserve (items_promised hr next is his hreserve.valid))

/-- A choice up to the bodies of its options. -/
def choiceHead (r : Registry) (next : Label) (is : List ChoiceItem) (span : Span) :
    Lower ItemList := do
  report (choiceErrors is span)
  emit StatementCode.choice.word
  emitTarget next
  itemList r next is

/-- A choice is lowered as its head with the bodies of its options behind. -/
theorem choice_apply (r : Registry) (o : CompileOptions) (next : Label) (is : List ChoiceItem) (span : Span)
    (d : Draft) :
    (stmt r o next (.choice is span) d).2
      = (blocks r o ((Stmt.choice is span).blocks.map Prod.snd)
          (choiceHead r next is span d).1.bodies (choiceHead r next is span d).2).2 := by
  unfold stmt
  simp only [optionBodies_eq]
  rfl

/-- The head of a choice is laid down: its report, its two words and its items. -/
theorem choiceHead_lays (hr : r.Floats P) (next : Label) {is : List ChoiceItem} (span : Span)
    (his : ChoiceItem.AllMeet (Expr.Floats P) F is) :
    Lays P (choiceHead r next is span) fun A s list t => A.Reports (choiceErrors is span) ∧
      A.script.words[s]? = some StatementCode.choice.word ∧
      Decoder.index A.script (s + 1) = .ok (A.target next, s + 2) ∧
      A.Holds (s + 2) list.count ∧ Offers P r next is A (s + 3) list t := by
  refine ((report_lays _).bind fun _ => header_lays _ next (itemList_lays hr next his)).mono ?_
  rintro A s list t _ _ _ ⟨_, _, ⟨hreports, rfl⟩, hw, hn, _, hlist⟩
  exact ⟨hreports, hw, hn, hlist⟩

/-- The entries of the bodies in the head of a choice are promised labels. -/
theorem choiceHead_promised (hr : r.Floats P) (next : Label) {is : List ChoiceItem} (span : Span)
    (his : ChoiceItem.AllMeet (Expr.Floats P) F is) (hd : d.Valid P) :
    Promised d (choiceHead r next is span d).2 (choiceHead r next is span d).1.entries := by
  have hreport := report_lays (choiceErrors is span) d hd
  have hcode := emit_lays StatementCode.choice.word _ hreport.valid
  have htarget := emitTarget_lays next _ hcode.valid
  exact .before hreport (.before hcode (.before htarget
    (itemList_promised hr next his htarget.valid)))

/-- In the head of a choice a word waits for the label behind the choice. -/
theorem choiceHead_awaits (hr : r.Floats P) (next : Label) {is : List ChoiceItem} (span : Span)
    (his : ChoiceItem.AllMeet (Expr.Floats P) F is) (hd : d.Valid P) :
    (choiceHead r next is span d).2.Awaits d.assembly.offset next := by
  have hreport := report_lays (choiceErrors is span) d hd
  exact header_awaits _ next (itemList_lays hr next his) hreport.valid

/-- A choice is laid down if the bodies of its options are. -/
theorem choice_laid (hr : r.Floats P) {is : List ChoiceItem} {span : Span}
    (his : ChoiceItem.AllMeet (Expr.Floats P) F is)
    (hx : ∀ p ∈ (Stmt.choice is span).blocks, ∀ x ∈ p.2, ∀ next d, d.Valid P →
      StmtLaid P r o x next d)
    (hd : d.Valid P) : StmtLaid P r o (.choice is span) next d := by
  have hhead := choiceHead_lays hr next span his d hd
  have hpromised := choiceHead_promised hr next span his hd
  have hawaits := choiceHead_awaits hr next span his hd
  have hlength : ((Stmt.choice is span).blocks.map Prod.snd).length
      = (choiceHead r next is span d).1.bodies.length := by
    rw [List.length_map]
    exact (length_items r next is _).symm
  have hrun := choice_apply r o next is span d
  generalize choiceHead r next is span d = head at hhead hpromised hawaits hlength hrun
  obtain ⟨list, d₁⟩ := head
  have hlaid : BlocksLaid P r ((Stmt.choice is span).blocks.map Prod.snd) list.bodies d₁
      (blocks r o ((Stmt.choice is span).blocks.map Prod.snd) list.bodies d₁).2 := by
    refine blocks_laid hlength ?_ hpromised.nodup hhead.valid ?_
    · intro b hb
      obtain ⟨p, hp, rfl⟩ := List.mem_map.mp hb
      exact hx p hp
    · intro l hl
      exact hpromised.fresh l.entry (List.mem_map_of_mem hl)
  have hseq : Emits P [] d _ _ :=
    hhead.seq hlaid.emits (by simp) fun l hl => .inr (hpromised.new l hl)
  refine ⟨?_, ?_⟩
  · rw [hrun]
    refine ⟨hseq.step, hseq.valid, ?_⟩
    intro A hA hagrees
    obtain ⟨⟨hreports, hw, hn, hcount, nodes, hemitted, hitems⟩, hrow⟩ := hseq.layout A hA hagrees
    -- a body that control falls off has words wait for its exit, since words wait for its entry
    have hleads : ∀ x b l, ((some x, b), l) ∈ (Stmt.choice is span).blocks.zip list.bodies →
        FallsOff b → A.Leads l.exit (A.target l.exit) := by
      intro x b l hmem hfalls
      have hentry := hpromised.awaited l.entry (List.mem_map_of_mem (List.of_mem_zip hmem).2)
      have hzip : (b, l) ∈ ((Stmt.choice is span).blocks.map Prod.snd).zip list.bodies := by
        rw [List.zip_map_left]
        exact List.mem_map_of_mem (f := Prod.map Prod.snd id) hmem
      exact hagrees.leads (hlaid.awaits b l hzip hfalls _ hhead.step.offset_le hentry)
    have hblocks := blocksAt_of_row hrow hemitted.exits hleads
    have hread := counted_ok hA (hlaid.emits.step.offset_le.trans hagrees.offset_le)
      (hemitted.count ▸ hcount) hemitted.listed
    refine .node (decode_choice hw hn hread) (.choice hreports (hitems.imp ?_)) hblocks
    rintro y b n ⟨l, hmem, rfl⟩
    rw [List.zip_map_right]
    exact List.mem_map_of_mem (f := Prod.map id fun l : BodyLabels => A.target l.entry) hmem
  · intro _
    rw [hrun]
    exact hawaits.step hlaid.emits.step

/-! ## All statements -/

/-- Every statement is laid down. -/
theorem stmt_laid (hr : r.Floats P) (x : Stmt) (hx : x.Meets (Expr.Floats P) F) (next : Label)
    (d : Draft) (hd : d.Valid P) : StmtLaid P r o x next d := by
  induction x using Stmt.induction generalizing next d with
  | step x ih =>
    have hblocks : ∀ p ∈ x.blocks, ∀ y ∈ p.2, ∀ next d, d.Valid P → StmtLaid P r o y next d :=
      fun p hp y hy => ih p hp y hy (hx.blocks p hp y hy)
    cases x with
    | line l =>
      rw [Stmt.Meets] at hx
      exact line_laid hr hx hd
    | instruction e =>
      rw [Stmt.Meets] at hx
      exact instruction_laid hr hx.floats hd
    | goto x => exact goto_laid hd
    | finish span => exact finish_laid hd
    | conditional branches otherwise span =>
      rw [Stmt.Meets, Stmt.branchesMeet_iff] at hx
      exact conditional_laid hr (fun b hb => (hx.1 b hb).1) hblocks hd
    | choice items span =>
      rw [Stmt.Meets] at hx
      exact choice_laid hr hx hblocks hd
    | hash h =>
      rw [Stmt.Meets] at hx
      exact hash_laid hr hx hd
    | speaker x h span =>
      rw [Stmt.Meets] at hx
      exact speaker_laid hr hx hd

end Lower

end Colloquy
