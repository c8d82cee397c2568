import SemanticNullability.Proofs.Conversion
import SemanticNullability.Proofs.Extension
import SemanticNullability.Proofs.Response
/-!
# Conversion and subtypes

An object may give a field of an interface a narrower type, one that is non-null at more places. Among
types without markers this is an order, `TypeExpr.IsSubtype`, and what it orders is which responses
are accepted (`TypeExpr.isSubtype_iff_accepts`). Conversion keeps the order between fields of the same
levels, in both modes, and so between the objects and interfaces of a schema. Between fields of one
type it depends on the mode: more levels make the strict result narrower and the nullable result wider
(`Schema.convert_covariant`). All of it is read off the depths at which a converted field is non-null
(`Field.isSubtype_convert`).
-/
namespace SemanticNullability

/-! ## The order -/

/-- Types without markers, of one name under equally many list layers, of which the first is non-null
wherever the second is. How often a wrapper is repeated makes no difference. -/
structure TypeExpr.IsSubtype (t u : TypeExpr) : Prop where
  unmarked : t.hasMarker = false
  unmarked_super : u.hasMarker = false
  baseName : t.baseName = u.baseName
  depth : t.depth = u.depth
  nonNull : ∀ l, .nonNull ∈ u.wrappers l → .nonNull ∈ t.wrappers l

/-! ### The order by what is accepted -/

namespace Response

/-- The response inside so many lists of one item. -/
def nested : Nat → Response → Response
  | 0, v => v
  | depth + 1, v => list [nested depth v]

theorem fitsDepth_nested_leaf (depth : Nat) {d : Nat} :
    (nested depth leaf).fitsDepth d = true ↔ depth = d := by
  induction depth generalizing d with
  | zero => cases d <;> simp [nested, fitsDepth]
  | succ depth ih => cases d <;> simp [nested, fitsDepth, ih]

theorem hasNullAt_nested_leaf (depth l : Nat) : (nested depth leaf).hasNullAt l = false := by
  induction depth generalizing l with
  | zero => cases l <;> rfl
  | succ depth ih => cases l <;> simp [nested, hasNullAt, ih]

theorem fitsDepth_nested_null {depth d : Nat} (h : depth ≤ d) :
    (nested depth null).fitsDepth d = true := by
  induction depth generalizing d with
  | zero => cases d <;> rfl
  | succ depth ih =>
    cases d with
    | zero => omega
    | succ d => simp [nested, fitsDepth, ih (Nat.le_of_succ_le_succ h)]

theorem hasNullAt_nested_null (depth : Nat) {l : Nat} :
    (nested depth null).hasNullAt l = true ↔ l = depth := by
  induction depth generalizing l with
  | zero => cases l <;> simp [nested, hasNullAt]
  | succ depth ih => cases l <;> simp [nested, hasNullAt, ih]

end Response

/-- **The order is containment.** Of two types without markers and of one name, the first is a subtype
exactly if the second accepts every response that the first accepts. -/
theorem TypeExpr.isSubtype_iff_accepts {t u : TypeExpr} (ht : t.hasMarker = false)
    (hu : u.hasMarker = false) (hname : t.baseName = u.baseName) :
    t.IsSubtype u ↔ ∀ v, t.accepts v = true → u.accepts v = true := by
  simp only [accepts_iff]
  constructor
  · rintro h v ⟨hfits, hspares⟩
    exact ⟨h.depth ▸ hfits, fun l hl => hspares l (h.nonNull l hl)⟩
  · intro h
    have hdepth : t.depth = u.depth := by
      have hleaf := h (.nested t.depth .leaf)
        ⟨(Response.fitsDepth_nested_leaf _).2 rfl, fun l _ => Response.hasNullAt_nested_leaf _ l⟩
      exact (Response.fitsDepth_nested_leaf _).1 hleaf.1
    refine ⟨ht, hu, hname, hdepth, fun l hl => ?_⟩
    by_contra hnone
    -- a null at just the depth in question
    have hl' : l ≤ t.depth := by
      by_contra hlt
      rw [wrappers_eq_nil_of_depth_lt (by omega)] at hl
      exact absurd hl List.not_mem_nil
    have hspares : t.Spares (.nested l .null) := by
      intro k hk
      rw [← Bool.not_eq_true, Response.hasNullAt_nested_null]
      rintro rfl
      exact hnone hk
    have hnull := (h _ ⟨Response.fitsDepth_nested_null hl', hspares⟩).2 l hl
    rw [(Response.hasNullAt_nested_null l).2 rfl] at hnull
    cases hnull

namespace Field

/-- The field under other levels. -/
def withLevels (f : Field) (levels : Levels) : Field := { f with semantic := some levels }

/-- A field that may stand for a field of an interface: under the same name and levels, with a
subtype. -/
structure Implements (f g : Field) : Prop where
  name : f.name = g.name
  semantic : f.semantic = g.semantic
  type : f.type.IsSubtype g.type

/-! ## Where a field is non-null -/

section

variable {f g : Field} {mode : Mode} {l : Nat}

/-- In either mode a non-null position of the type counts for the result, or not, by the levels
alone. -/
theorem Enforced.of_isSubtype (h : g.Enforced mode l) (hlevels : f.semantic = g.semantic)
    (htype : f.type.IsSubtype g.type) : f.Enforced mode l := by
  have hmore := htype.nonNull l
  have hnone := TypeExpr.semantic_not_mem_wrappers htype.unmarked_super l
  unfold Enforced at h ⊢
  rw [hlevels]
  cases hg : g.semantic with
  | some levels =>
    rw [hg] at h
    cases mode with
    | strict => exact h.imp_right hmore
    | nullable => exact h.imp_right hmore
  | none =>
    rw [hg] at h
    cases mode with
    | strict => exact .inl (hmore (h.resolve_right hnone))
    | nullable => exact hmore h

variable {less more : Levels} (hsub : ∀ level ∈ less.toList, level ∈ more.toList)

include hsub

/-- More levels enforce more in strict mode. -/
theorem Enforced.strict_of_subset (h : (f.withLevels less).Enforced .strict l) :
    (f.withLevels more).Enforced .strict l :=
  Or.imp_left (fun hless => hless.mono hsub) h

/-- More levels enforce less in nullable mode. -/
theorem Enforced.nullable_of_subset (h : (f.withLevels more).Enforced .nullable l) :
    (f.withLevels less).Enforced .nullable l :=
  And.imp_left (fun hmore hless => hmore (hless.mono hsub)) h

end

/-! ## Converted fields -/

section

variable {f g : Field} {mode : Mode}

/-- Of two fields of one name and depth, the one that is non-null at more depths has the narrower
result. -/
theorem isSubtype_convert (hname : f.type.baseName = g.type.baseName)
    (hdepth : f.type.depth = g.type.depth) (hsize : g.type.depth < UInt32.size)
    (h : ∀ l, g.Enforced mode l → f.Enforced mode l) :
    (f.convert mode).type.IsSubtype (g.convert mode).type where
  unmarked := TypeExpr.hasMarker_convert mode _
  unmarked_super := TypeExpr.hasMarker_convert mode _
  baseName := by rw [baseName_convert, baseName_convert, hname]
  depth := by rw [depth_convert, depth_convert, hdepth]
  nonNull l hl := by
    rw [nonNull_mem_wrappers_convert_iff hsize] at hl
    rw [nonNull_mem_wrappers_convert_iff (hdepth ▸ hsize), hdepth]
    exact ⟨hl.1, h l hl.2⟩

/-- Conversion is monotone in the type. -/
theorem isSubtype_convert_of_isSubtype (hsize : g.type.depth < UInt32.size)
    (hlevels : f.semantic = g.semantic) (htype : f.type.IsSubtype g.type) :
    (f.convert mode).type.IsSubtype (g.convert mode).type :=
  isSubtype_convert htype.baseName htype.depth hsize fun _ h => h.of_isSubtype hlevels htype

theorem Implements.convert (h : f.Implements g) (hsize : g.type.depth < UInt32.size) :
    (f.convert mode).Implements (g.convert mode) where
  name := by
    rw [convert_eq_plain, convert_eq_plain]
    exact h.name
  semantic := by
    rw [convert_eq_plain, convert_eq_plain]
    rfl
  type := isSubtype_convert_of_isSubtype hsize h.semantic h.type

end

end Field

/-! ## Schemas -/

namespace Schema

/-- Whether what implements an interface has a field for each of the interface's, of the same levels
and of a subtype. -/
def ImplementsInterfaces (s : Schema) : Prop :=
  ∀ e ∈ s.types.entries, ∀ name ∈ e.2.interfaces, ∀ t, s.type? name = some (.interface t) →
    ∀ g ∈ t.fields, ∃ f ∈ e.2.fields, f.Implements g

/-- An interface of a converted schema is a converted interface. -/
theorem type?_convert_eq_interface {s : Schema} {mode : Mode} {name : String} {t : FieldedType Field}
    (h : (s.convert mode).type? name = some (.interface t)) :
    ∃ u, s.type? name = some (.interface u) ∧ t.fields = u.fields.map (Field.convert mode) := by
  rw [type?_convert] at h
  split at h
  · cases h
  · obtain ⟨d, hd, hconvert⟩ := Option.map_eq_some_iff.1 h
    cases d with
    | interface u =>
      cases hconvert
      exact ⟨u, hd, rfl⟩
    | object | union | scalar | enum | inputObject => cases hconvert

/-- Conversion keeps the implementation of interfaces. -/
theorem ImplementsInterfaces.convert {s : Schema} (h : s.ImplementsInterfaces) (mode : Mode)
    (hsize : ∀ e ∈ s.types.entries, ∀ f ∈ e.2.fields, f.type.depth < UInt32.size) :
    (s.convert mode).ImplementsInterfaces := by
  intro e he name hname t ht g hg
  obtain ⟨u, hu, hfields⟩ := type?_convert_eq_interface ht
  rw [hfields] at hg
  obtain ⟨source, hsource, rfl⟩ := List.mem_map.1 hg
  rw [types_convert] at he
  obtain ⟨entry, hentry, rfl⟩ := List.mem_map.1 he
  have hmem : entry ∈ s.types.entries := List.mem_of_mem_filter hentry
  rw [TypeDefinition.convert, TypeDefinition.interfaces_mapFields] at hname
  obtain ⟨f, hf, himplements⟩ := h entry hmem name hname u hu source hsource
  refine ⟨f.convert mode, ?_, himplements.convert ?_⟩
  · rw [TypeDefinition.convert, TypeDefinition.fields_mapFields]
    exact List.mem_map_of_mem hf
  · exact hsize _ (Registry.find?_eq_some_iff.1 hu) source hsource

/-- **Conversion respects subtypes.** Of two fields of the same levels the one of the narrower type has
the narrower result, in each mode; so what implements the interfaces of a schema does so when it is
converted. For one type, more levels make the strict result narrower and the nullable one wider. -/
theorem convert_covariant :
    (∀ (mode : Mode) (f g : Field), g.type.depth < UInt32.size → f.semantic = g.semantic →
      f.type.IsSubtype g.type → (f.convert mode).type.IsSubtype (g.convert mode).type) ∧
    (∀ (mode : Mode) (s : Schema),
      (∀ e ∈ s.types.entries, ∀ f ∈ e.2.fields, f.type.depth < UInt32.size) →
        s.ImplementsInterfaces → (s.convert mode).ImplementsInterfaces) ∧
    ∀ (f : Field) (less more : Levels), f.type.depth < UInt32.size →
      (∀ level ∈ less.toList, level ∈ more.toList) →
        ((f.withLevels more).convert .strict).type.IsSubtype
          ((f.withLevels less).convert .strict).type ∧
        ((f.withLevels less).convert .nullable).type.IsSubtype
          ((f.withLevels more).convert .nullable).type := by
  refine ⟨fun mode f g hsize hlevels htype => ?_, fun mode s hsize h => h.convert mode hsize,
    fun f less more hsize hsub => ⟨?_, ?_⟩⟩
  · exact Field.isSubtype_convert_of_isSubtype hsize hlevels htype
  · exact Field.isSubtype_convert rfl rfl hsize fun _ h => h.strict_of_subset hsub
  · exact Field.isSubtype_convert rfl rfl hsize fun _ h => h.nullable_of_subset hsub

/-- The field `[String]!` of an interface, under two levels of which the second is beyond the type. -/
def tags : Field :=
  { Field.ofType "tags" (.nonNull (.list (.named "String"))) with
    semantic := some (Levels.ofList [1, 9]) }

/-- The same field as `[String!]!!`, with a doubled wrapper. -/
def narrowTags : Field :=
  { tags with type := .nonNull (.nonNull (.list (.nonNull (.named "String")))) }

/-- An interface and an object that implements it. -/
def taggedPosts : Schema where
  roots := Roots.none
  directives := []
  types :=
    ⟨[("Tagged", .interface ⟨"Tagged", none, [], [], [tags]⟩),
      ("Post", .object ⟨"Post", none, ["Tagged"], [], [narrowTags]⟩)], by decide⟩
  directiveDefinitions := ∅

theorem convert_covariant_taggedPosts :
    (tags.type.depth < UInt32.size ∧ narrowTags.semantic = tags.semantic ∧
      narrowTags.type.IsSubtype tags.type) ∧
    (narrowTags.convert .nullable).type.IsSubtype (tags.convert .nullable).type ∧
    taggedPosts.ImplementsInterfaces ∧ (taggedPosts.convert .nullable).ImplementsInterfaces ∧
    ((tags.withLevels (Levels.ofList [1, 0])).convert .strict).type.IsSubtype
      ((tags.withLevels (Levels.ofList [0])).convert .strict).type ∧
    ((tags.withLevels (Levels.ofList [0])).convert .nullable).type.IsSubtype
      ((tags.withLevels (Levels.ofList [1, 0])).convert .nullable).type := by
  have hsize : tags.type.depth < UInt32.size := by decide
  have htype : narrowTags.type.IsSubtype tags.type := by
    refine ⟨rfl, rfl, rfl, rfl, fun l hl => ?_⟩
    match l with
    | 0 => decide
    | 1 => decide
    | l + 2 => cases hl
  have hinterfaces : taggedPosts.ImplementsInterfaces := by
    intro e he name hname t ht g hg
    rcases List.mem_cons.1 he with rfl | he
    · cases hname
    · obtain rfl := List.mem_singleton.1 he
      obtain rfl := List.mem_singleton.1 hname
      cases ht
      obtain rfl := List.mem_singleton.1 hg
      exact ⟨narrowTags, List.mem_singleton_self _, rfl, rfl, htype⟩
  have hsizes : ∀ e ∈ taggedPosts.types.entries, ∀ f ∈ e.2.fields,
      f.type.depth < UInt32.size := by decide
  obtain ⟨hmono, hschema, hlevels⟩ := convert_covariant
  obtain ⟨hstrict, hnullable⟩ :=
    hlevels tags (Levels.ofList [0]) (Levels.ofList [1, 0]) hsize (by simp)
  exact ⟨⟨hsize, rfl, htype⟩, hmono .nullable narrowTags tags hsize rfl htype, hinterfaces,
    hschema .nullable taggedPosts hsizes hinterfaces, hstrict, hnullable⟩

end Schema

end SemanticNullability
