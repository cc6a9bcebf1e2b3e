import Latypus.Sql.Contexts

/-! The text that a table definition prints, read by the parser up to the last of its columns. Each
lemma says which statement is being read behind a piece of the text, or that the parser is in its error
state there. -/

namespace Latypus.Sql
open Http (Bytes decimal atoi isAlpha isDigit)
open Lib Lib.Pattern Contexts

/-- An identifier without quotes that is not a reserved word. -/
def isName (w : Bytes) : Bool :=
  isIdentifier w && !Grammar.reserved.any (spells ByteClass.has · w)

/-- The value of a default is NULL or a text in quotes. -/
def ColumnConstraint.WellFormed : ColumnConstraint → Prop
  | .default value => value = Grammar.NULL ∨ ∃ v, 39 ∉ v ∧ value = 39 :: (v ++ [39])
  | .null | .notNull | .primaryKey | .unique => True

/-- A size or a number of decimals of zero is none, and decimals stand behind a size only. -/
structure ColumnDefinition.WellFormed (c : ColumnDefinition) : Prop where
  columnName : isName c.columnName
  typeName : isName c.typeName
  size : 0 ≤ c.size
  decimals : 0 ≤ c.decimals
  sized : 0 < c.decimals → 0 < c.size
  constraints : ∀ constraint ∈ c.constraints, constraint.WellFormed

def ColumnDefinition.names (c : ColumnDefinition) : List Bytes := [c.columnName, c.typeName]

namespace Reader

/-- A text between two contexts in which no token has been begun. -/
def Passes (good : Prop) (ts : List (List Pat)) (d : TableDefinition) (w : Bytes) (us : List (List Pat))
    (d' : TableDefinition) : Prop :=
  ∀ t, (good → ∃ t', (reading ts t d).run w = reading us t' d') ∧ (¬good → ((reading ts t d).run w).Dead)

section Passes
variable {good good' : Prop} {ts us vs ks : List (List Pat)} {w w' name : Bytes} {c x : UInt8}
  {as : List Action} {d d' d'' : TableDefinition}

theorem Passes.append (h : Passes good ts d w us d') (h' : Passes good' us d' w' vs d'') :
    Passes (good ∧ good') ts d (w ++ w') vs d'' := by
  intro t
  obtain ⟨hgood, hbad⟩ := h t
  rw [run_append]
  by_cases hg : good
  · obtain ⟨t', hrun⟩ := hgood hg
    rw [hrun]
    simpa [hg] using h' t'
  · exact ⟨fun hand => absurd hand.1 hg, fun _ => (hbad hg).run w'⟩

theorem Passes.congr (h : Passes good ts d w us d') (hgood : good ↔ good') : Passes good' ts d w us d' := by
  simpa only [Passes, hgood] using h

theorem passes_of_walk (h : walk ts (c :: w) = (as :: List.replicate w.length [], us))
    (hact : ∀ vs t, ∃ t', as.foldl act (reading vs t d) = reading vs t' d') :
    Passes True ts d (c :: w) us d' := by
  intro t
  refine ⟨fun _ => ?_, fun hfalse => absurd trivial hfalse⟩
  obtain ⟨t', ht'⟩ := hact (after ByteClass.has Grammar.reserved ts c) t
  exact ⟨_, run_of_walk h ht'⟩

/-- A token with the text behind it, whose first byte executes the action of the token. -/
theorem passes_of_takes (h : ∀ t, Takes good (reading ts t d) name (reading ks name d'))
    (hx : isWord x = false) (hwalk : walk ks (x :: w) = (as :: List.replicate w.length [], us))
    (hact : ∀ vs, as.foldl act (reading vs name d') = reading vs name d'') :
    Passes good ts d (name ++ x :: w) us d'' := by
  intro t
  obtain ⟨hgood, hbad⟩ := h t x w hx
  refine ⟨fun hg => ?_, hbad⟩
  rw [hgood hg, run_of_walk hwalk (hact _)]
  exact ⟨_, rfl⟩

end Passes

/-- An identifier has no quotes to take away. -/
theorem dequote_of_isIdentifier {name : Bytes} (h : isIdentifier name) : dequote name = name := by
  cases name with
  | nil => rfl
  | cons c w =>
    have hc : c ≠ 96 := by
      rintro rfl
      simp [isIdentifier, show isAlpha 96 = false from rfl] at h
    simp [dequote, hc]

section Qualified
variable {a : Action} {k : List Pat} {as : List Action} {x : UInt8} {w schema table : Bytes}
  {us : List (List Pat)} {d d' d'' : TableDefinition}

/-- The name of a table, with or without that of its schema. -/
theorem passes_qualified (d' : TableDefinition)
    (hquiet : Quiet [out a :: Grammar.byte 46 :: enter .tokenStart Grammar.Identifier :: k, k])
    (hschemaWalk : walk [out a :: Grammar.byte 46 :: enter .tokenStart Grammar.Identifier :: k, k] [46] =
      ([[a]], [enter .tokenStart Grammar.Identifier :: k]))
    (htableWalk : ∀ ks ∈ [[out a :: Grammar.byte 46 :: enter .tokenStart Grammar.Identifier :: k, k], [k]],
      walk ks (x :: w) = (as :: List.replicate w.length [], us))
    (hx : isWord x = false) (hschema : schema = [] ∨ isIdentifier schema) (htable : isIdentifier table)
    (hschemaAct : if schema = [] then d' = d else ∀ vs, (reading vs schema d).act a = reading vs schema d')
    (htableAct : ∀ vs, as.foldl act (reading vs table d') = reading vs table d'') :
    Passes (tainted [] schema = false ∧ tainted [] table = false)
      [star Grammar.ws :: opt (seq (Grammar.token a Grammar.Identifier) (Grammar.byte 46)) ::
        enter .tokenStart Grammar.Identifier :: k] d
      ((if 0 < schema.length then schema ++ [46] else []) ++ (table ++ x :: w)) us d'' := by
  rcases hschema with rfl | hschema
  · obtain rfl : d' = d := by simpa using hschemaAct
    have hpasses := passes_of_takes (fun _ => takes_qualified hquiet htable) hx (htableWalk _ (by simp)) htableAct
    refine Passes.congr hpasses ?_
    simp [tainted]
  · have hne : schema ≠ [] := by
      rintro rfl
      simp [isIdentifier] at hschema
    rw [if_neg hne] at hschemaAct
    rw [if_pos (List.length_pos_iff.mpr hne)]
    have hquietTable : Quiet [k] := fun j hj => hquiet j (by simp_all)
    have hfirst := passes_of_takes (fun _ => takes_qualified hquiet hschema) (show isWord 46 = false by decide)
      hschemaWalk hschemaAct
    have hsecond := passes_of_takes (fun _ => takes_identifier hquietTable htable) hx (htableWalk _ (by simp))
      htableAct
    exact hfirst.append hsecond

end Qualified

/-- The name of the table. -/
theorem passes_tableName {schema table : Bytes} (hschema : schema = [] ∨ isIdentifier schema)
    (htable : isIdentifier table) :
    Passes (tainted [] schema = false ∧ tainted [] table = false) [tableStart] .new
      ((if 0 < schema.length then schema ++ [46] else []) ++ (table ++ [32, 40])) firstColumn
      ⟨schema, table, [], []⟩ := by
  have hdequote := dequote_of_isIdentifier htable
  refine passes_qualified ⟨schema, [], [], []⟩ (by decide) walk_schema walk_table (by decide) hschema htable ?_ ?_
  · split
    · simp_all [TableDefinition.new]
    · have := dequote_of_isIdentifier (hschema.resolve_left ‹_›)
      simp [act, handle, reading, ParserImpl.modify, this, TableDefinition.new]
  · intro vs
    simp [act, handle, reading, ParserImpl.modify, hdequote]

/-- A reader that has read a column so far that the column may end here. -/
structure Complete (r : Reader) (d : TableDefinition) : Prop where
  gap : ∃ e ∈ columnEnds, ∃ t, r.read 32 = reading e.2.2 t d
  comma : ∃ t, r.read 44 = reading elementStart t d
  close : ∃ t, r.read 41 = reading [endTail] t d

section Columns
variable {r : Reader} {d e : TableDefinition} {column : ColumnDefinition} {t : Bytes}

theorem complete_of_mem {next : List Pat} {as : List Action} {gap : List (List Pat)} {d' : TableDefinition}
    (hmem : (next, as, gap) ∈ columnEnds) (hact : ∀ vs, as.foldl act (reading vs t d) = reading vs t d') :
    Complete (reading [next] t d) d' := by
  obtain ⟨hgap, hcomma, hclose⟩ := walk_columnEnds _ hmem
  exact ⟨⟨_, hmem, _, run_of_walk hgap (hact _)⟩,
    ⟨_, run_of_walk hcomma (hact _)⟩, ⟨_, run_of_walk hclose (hact _)⟩⟩

theorem complete_constraintAction (constraint : ColumnConstraint)
    (ht : ∀ value, constraint = .default value → t = value) :
    Complete (reading [out (constraintAction constraint) :: columnTail] t (d.addColumn column))
      (d.addColumn { column with constraints := column.constraints ++ [constraint] }) := by
  have hmem : (out (constraintAction constraint) :: columnTail, [constraintAction constraint], columnGap) ∈
      columnEnds := by
    cases constraint <;> simp [columnEnds, constraintAction, defaultNext]
  refine complete_of_mem hmem fun vs => ?_
  cases constraint with
  | default value => simp [constraintAction, act, handle, reading, ParserImpl.pushColumnConstraint, ht value rfl]
  | null | notNull | primaryKey | unique =>
    simp [constraintAction, act, handle, reading, ParserImpl.pushColumnConstraint]

theorem run_defaultValue {value : Bytes} (hvalue : (ColumnConstraint.default value).WellFormed) :
    (reading defaultStart t d).run value = reading [defaultNext] value d := by
  rcases hvalue with rfl | ⟨v, hv, rfl⟩
  · exact run_of_walk walk_default.1 rfl
  · have hquote : (reading defaultStart t d).run [39] =
        reading [star (sym (.notByte 39)) :: Grammar.byte 39 :: defaultNext] [39] d :=
      run_of_walk walk_default.2 rfl
    rw [← List.singleton_append, run_append, hquote, run_quoted hv]
    rfl

theorem Complete.constraint {constraint : ColumnConstraint} (h : Complete r (d.addColumn column))
    (hwell : constraint.WellFormed) :
    Complete (r.run ([32] ++ constraint.toString))
      (d.addColumn { column with constraints := column.constraints ++ [constraint] }) := by
  obtain ⟨e, he, t, hgap⟩ := h.gap
  rw [run_append, run_cons, run_nil, hgap]
  cases constraint with
  | default value =>
    have hkeyword := run_silent (walk_columnGaps e he).2 t (d.addColumn column)
    rw [ColumnConstraint.toString, show [68, 69, 70, 65, 85, 76, 84, 32] = Grammar.DEFAULT ++ [32] from rfl,
      run_append, hkeyword, run_defaultValue hwell]
    exact complete_constraintAction (.default value) (by simp)
  | null =>
    rw [run_silent ((walk_columnGaps e he).1 .null (by simp))]
    exact complete_constraintAction .null (by simp)
  | notNull =>
    rw [run_silent ((walk_columnGaps e he).1 .notNull (by simp))]
    exact complete_constraintAction .notNull (by simp)
  | primaryKey =>
    rw [run_silent ((walk_columnGaps e he).1 .primaryKey (by simp))]
    exact complete_constraintAction .primaryKey (by simp)
  | unique =>
    rw [run_silent ((walk_columnGaps e he).1 .unique (by simp))]
    exact complete_constraintAction .unique (by simp)

theorem Complete.constraints {constraints : List ColumnConstraint} (h : Complete r (d.addColumn column))
    (hwell : ∀ constraint ∈ constraints, constraint.WellFormed) :
    Complete (r.run (constraints.flatMap fun constraint => [32] ++ constraint.toString))
      (d.addColumn { column with constraints := column.constraints ++ constraints }) := by
  induction constraints generalizing r column with
  | nil => simpa using h
  | cons constraint constraints ih =>
    have hfirst := h.constraint (hwell constraint (by simp))
    have hrest := ih hfirst fun c hc => hwell c (by simp [hc])
    rw [List.flatMap_cons, run_append]
    simpa using hrest

/-- The name of a type with a size behind it. -/
theorem passes_sizedType {type : Bytes} {size decimals : Int} (htype : isIdentifier type) (hsize : 0 < size)
    (hdecimals : 0 ≤ decimals) :
    Passes (tainted [] type = false) [typeStart] (d.addColumn column)
      (type ++ ([40] ++ decimal size ++ (if 0 < decimals then [44] ++ decimal decimals else []) ++ [41])) [columnEnd]
      (d.addColumn { column with
        typeName := type, size := size, decimals := if 0 < decimals then decimals else column.decimals }) := by
  obtain ⟨hsizeNe, hsizeDigits, hsizeAtoi⟩ := Http.decimal_spec (Int.le_of_lt hsize)
  obtain ⟨hdecNe, hdecDigits, hdecAtoi⟩ := Http.decimal_spec hdecimals
  have hname : Passes (tainted [] type = false) [typeStart] (d.addColumn column) (type ++ [40]) [sizeStart]
      (d.addColumn { column with typeName := type }) := by
    refine passes_of_takes (fun _ => takes_wsIdentifier (by decide) htype) (by decide) walk_type fun vs => ?_
    simp [act, handle, reading]
  by_cases hpos : 0 < decimals
  · have hfirst : Passes True [sizeStart] (d.addColumn { column with typeName := type }) (decimal size ++ [44])
        [decimalsStart] (d.addColumn { column with typeName := type, size := size }) := by
      refine passes_of_takes (fun _ => takes_number (by decide) hsizeNe hsizeDigits) (by decide) walk_size.1 ?_
      intro vs
      simp [act, handle, reading, hsizeAtoi]
    have hsecond : Passes True [decimalsStart] (d.addColumn { column with typeName := type, size := size })
        (decimal decimals ++ [41]) [columnEnd]
        (d.addColumn { column with typeName := type, size := size, decimals := decimals }) := by
      refine passes_of_takes (fun _ => takes_number (by decide) hdecNe hdecDigits) (by decide) walk_decimals ?_
      intro vs
      simp [act, handle, reading, hdecAtoi]
    have hpasses := (hname.append (hfirst.append hsecond)).congr
      (show _ ↔ tainted [] type = false by simp)
    simpa [hpos] using hpasses
  · have hfirst : Passes True [sizeStart] (d.addColumn { column with typeName := type }) (decimal size ++ [41])
        [columnEnd] (d.addColumn { column with typeName := type, size := size }) := by
      refine passes_of_takes (fun _ => takes_number (by decide) hsizeNe hsizeDigits) (by decide) walk_size.2 ?_
      intro vs
      simp [act, handle, reading, hsizeAtoi]
    have hpasses := (hname.append hfirst).congr (show _ ↔ tainted [] type = false by simp)
    simpa [hpos] using hpasses

/-- A column that is read, or given up at the byte behind it if not before. -/
def Completes (good : Prop) (r : Reader) (d : TableDefinition) : Prop :=
  (good → Complete r d) ∧ (¬good → ∀ x rest, isWord x = false → (r.run (x :: rest)).Dead)

theorem complete_columnEnd : Complete (reading [columnEnd] t d) d := by
  have hmem : (columnEnd, ([] : List Action), columnEnd :: columnGap) ∈ columnEnds := by simp [columnEnds]
  exact complete_of_mem hmem fun _ => rfl

theorem complete_typeNext :
    Complete (reading [typeNext] t (d.addColumn column)) (d.addColumn { column with typeName := t }) := by
  have hmem : (typeNext, [Action.tableColumnTypeName], (star Grammar.ws :: Grammar.byte 40 :: sizeStart) :: columnGap) ∈
      columnEnds := by simp [columnEnds]
  refine complete_of_mem hmem fun vs => ?_
  simp [act, handle, reading]

theorem Completes.constraints {good : Prop} {constraints : List ColumnConstraint}
    (h : Completes good r (d.addColumn column)) (hwell : ∀ constraint ∈ constraints, constraint.WellFormed) :
    Completes good (r.run (constraints.flatMap fun constraint => [32] ++ constraint.toString))
      (d.addColumn { column with constraints := column.constraints ++ constraints }) := by
  refine ⟨fun hgood => (h.1 hgood).constraints hwell, fun hbad x rest hx => ?_⟩
  rw [← run_append]
  cases constraints with
  | nil => exact h.2 hbad x rest hx
  | cons constraint constraints => exact h.2 hbad 32 _ (by decide)

/-- A token at the end of a column. -/
theorem completes_of_takes {good : Prop} {r' : Reader} {w : Bytes} (h : Takes good r w r') (hr' : Complete r' d) :
    Completes good (r.run w) d := by
  have hread : ∀ x, isWord x = false → good → (r.run w).read x = r'.read x := by
    intro x hx hgood
    simpa [run_append, run_cons] using (h x [] hx).1 hgood
  refine ⟨fun hgood => ?_, fun hbad x rest hx => ?_⟩
  · obtain ⟨hgap, hcomma, hclose⟩ := hr'
    exact ⟨by rwa [hread 32 (by decide) hgood], by rwa [hread 44 (by decide) hgood],
      by rwa [hread 41 (by decide) hgood]⟩
  · rw [← run_append]
    exact (h x rest hx).2 hbad

/-- The type of a column and its size. -/
theorem completes_type {c : ColumnDefinition} (hwell : c.WellFormed) (t : Bytes) (d : TableDefinition) :
    Completes (tainted [] c.typeName = false)
      ((reading [typeStart] t (d.addColumn { ColumnDefinition.new with columnName := c.columnName })).run (c.typeName ++
        (if 0 < c.size then
          [40] ++ decimal c.size ++ (if 0 < c.decimals then [44] ++ decimal c.decimals else []) ++ [41]
        else [])))
      (d.addColumn { c with constraints := [] }) := by
  have htype : isIdentifier c.typeName := (Bool.and_eq_true_iff.mp hwell.typeName).1
  split
  · rename_i hsize
    obtain ⟨hgood, hbad⟩ := passes_sizedType htype hsize hwell.decimals t
    refine ⟨fun hg => ?_, fun hg x rest _ => (hbad hg).run _⟩
    obtain ⟨t', hrun⟩ := hgood hg
    have hdecimals : (if 0 < c.decimals then c.decimals else 0) = c.decimals := by
      have := hwell.decimals
      split <;> omega
    rw [hrun]
    simp only [ColumnDefinition.new, hdecimals]
    exact complete_columnEnd
  · rename_i hsize
    have hsizes : c.size = 0 ∧ c.decimals = 0 := by
      have := hwell.size
      have := hwell.decimals
      have := hwell.sized
      omega
    rw [List.append_nil]
    refine completes_of_takes (takes_wsIdentifier (by decide) htype) ?_
    rw [show { c with constraints := [] } = ({ ColumnDefinition.new with
      columnName := c.columnName, typeName := c.typeName } : ColumnDefinition) by simp [ColumnDefinition.new, hsizes]]
    exact complete_typeNext

/-- A column, in a context that takes its name. -/
theorem completes_column {c : ColumnDefinition} {ts : List (List Pat)} (hwell : c.WellFormed) (t : Bytes)
    (hname : ∀ t, Takes (tainted [] c.columnName = false) (reading ts t e) c.columnName
      (reading [columnNext] c.columnName (d.addColumn .new))) :
    Completes (tainted [] c.columnName = false ∧ tainted [] c.typeName = false)
      ((reading ts t e).run c.toString) (d.addColumn c) := by
  have hdequote := dequote_of_isIdentifier (Bool.and_eq_true_iff.mp hwell.columnName).1
  have hpasses : Passes (tainted [] c.columnName = false) ts e (c.columnName ++ [32]) [typeStart]
      (d.addColumn { ColumnDefinition.new with columnName := c.columnName }) := by
    refine passes_of_takes hname (by decide) walk_column fun vs => ?_
    simp [act, handle, reading, hdequote]
  obtain ⟨hgood, hbad⟩ := hpasses t
  rw [ColumnDefinition.toString, List.append_assoc (c.columnName ++ [32]), run_append, run_append]
  by_cases hg : tainted [] c.columnName = false
  · obtain ⟨t', hrun⟩ := hgood hg
    have hcolumn := (completes_type hwell t' d).constraints hwell.constraints
    rw [hrun]
    simpa only [hg, true_and, List.nil_append] using hcolumn
  · refine ⟨fun h => absurd h.1 hg, fun _ x rest _ => ?_⟩
    exact (((hbad hg).run _).run _).run _

/-- A column but the first, with the comma before it. -/
theorem Completes.nextColumn {good : Prop} {c : ColumnDefinition} (h : Completes good r d) (hwell : c.WellFormed) :
    Completes (good ∧ ∀ name ∈ c.names, tainted [] name = false) (r.run ([44, 32] ++ c.toString))
      (({ d with tableConstraints := d.tableConstraints ++ spuriousConstraints c.columnName }).addColumn c) := by
  obtain ⟨hidentifier, hreserved⟩ : isIdentifier c.columnName ∧
      Grammar.reserved.any (spells ByteClass.has · c.columnName) = false := by
    simpa [isName] using hwell.columnName
  rw [run_append]
  by_cases hgood : good
  · obtain ⟨t, hcomma⟩ := (h.1 hgood).comma
    have hblank : (reading elementStart t d).run [32] = reading elementStart (t ++ [32]) d := run_silent walk_comma t d
    rw [run_cons, hcomma, hblank]
    have hcolumn := completes_column hwell (t ++ [32]) fun t => takes_element hidentifier hreserved t d
    simpa [hgood, ColumnDefinition.names] using hcolumn
  · refine ⟨fun hand => absurd hand.1 hgood, fun _ x rest _ => ?_⟩
    exact ((h.2 hgood 44 [32] (by decide)).run _).run _

theorem Completes.columns {good : Prop} {cs : List ColumnDefinition} (h : Completes good r d)
    (hwell : ∀ c ∈ cs, c.WellFormed) :
    Completes (good ∧ ∀ c ∈ cs, ∀ name ∈ c.names, tainted [] name = false) (r.run (columnsToString false cs))
      { d with
        columnDefinitions := d.columnDefinitions ++ cs
        tableConstraints := d.tableConstraints ++ cs.flatMap fun c => spuriousConstraints c.columnName } := by
  induction cs generalizing good r d with
  | nil => simpa [columnsToString] using h
  | cons c cs ih =>
    have hfirst := h.nextColumn (hwell c (by simp))
    have hrest := ih hfirst fun c hc => hwell c (by simp [hc])
    have hne : ¬c.columnName.length = 0 := by
      intro hnil
      have hname := (hwell c (by simp)).columnName
      rw [List.length_eq_zero_iff.mp hnil] at hname
      exact absurd hname (by decide)
    rw [columnsToString, if_neg hne, run_append]
    simpa [TableDefinition.addColumn, and_assoc] using hrest

end Columns

end Reader
end Latypus.Sql
