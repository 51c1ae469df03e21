import Tdlib.Retriever.Links

/-!
# The advertisement verdict

The order of the tasks turns out not to matter. Only two of them write to the
shared set, and all they can write is `triggerWord`; whatever a task copies from
it or returns a reference to is therefore `∅` or `{triggerWord}`, and no filter
tells the two apart. Away from that one flag the verdict is a function of the
links and the verbs alone.

There are two defects. The filters wait for `frequentlyAdvertised`, which
nothing raises: `AdvertisementObjectsRetriever` raises `triggerWord`, like its
sibling, so a promoted product never marks a message on its own. And a link
counts as one to `t.me` if its text contains these letters, whatever its host.
-/

namespace Tdlib.Advertising

open List

/-! ## What the retrievers are named for -/

/-- The text has a text-url entity whose url passes the test. -/
def HasLink (test : String → Bool) (text : FormattedText) : Prop :=
  ∃ url ∈ WebsiteLinks.urls text, test url = true

/-- The text has a link with the host `t.me`. -/
def HasTelegramLink (text : FormattedText) : Prop := HasLink WebsiteLinks.hasTelegramHost text

/-- Some word's first verb reading is imperative. -/
def HasImperativeVerb (A : Analyser) (text : FormattedText) : Prop :=
  ∃ word ∈ A.parserTextToLowerCaseList text.text,
    ∃ form, A.firstForm .verb word = some form ∧ form.imperative

/-- Some word's first noun reading is a frequently promoted product. -/
def HasPromotedProduct (A : Analyser) (text : FormattedText) : Prop :=
  ∃ word ∈ A.parserTextToLowerCaseList text.text, ∃ form, A.firstForm .noun word = some form ∧
      form.initialFormString ∈ AdvertisementObjects.frequentlyPromotedProducts

/-! ## What each retriever adds -/

variable {text : FormattedText} {flags : Finset Flag} {f : Flag} {A : Analyser}
  {order : List Retriever} {content : MessageContent}

/-- Links only ever add to the flags that are there. -/
theorem websiteLinks_mem :
    f ∈ WebsiteLinks.apply text flags ↔ f ∈ flags ∨ f ∈ WebsiteLinks.apply text ∅ := by
  simp only [WebsiteLinks.apply, Finset.mem_union, Finset.notMem_empty, false_or, or_assoc]

theorem imperativeVerbs_mem :
    f ∈ ImperativeVerbs.apply A text flags ↔ f ∈ flags ∨ f ∈ ImperativeVerbs.apply A text ∅ := by
  unfold ImperativeVerbs.apply
  dsimp only
  split
  · simp
  · split
    · simp [or_comm]
    · simp only [Finset.mem_insert, Finset.notMem_empty, or_false]
      tauto

theorem applyNouns_subset {list : List String} (h : flags ⊆ {.triggerWord}) :
    applyNouns list A text flags ⊆ {.triggerWord} := by
  unfold applyNouns
  split
  · exact h
  · exact Finset.insert_subset (mem_singleton_self _) h

/-- The shared set never holds anything but `triggerWord`. -/
theorem call_subset {text : Option FormattedText} (h : flags ⊆ {.triggerWord}) (r : Retriever) :
    (call A text flags r).2 ⊆ {.triggerWord} := by
  cases text with
  | none => exact h
  | some text =>
    cases r with
    | websiteLinks | imperativeVerbs | triggerHashTag => exact h
    | advertisementObjects | triggerWords => exact applyNouns_subset h

/-! ## Any order -/

/-- What holds of the pool once the tasks of `done` have run. -/
structure PoolInv (A : Analyser) (text : Option FormattedText) (done : List Retriever) (p : Pool) :
    Prop where
  /-- Nothing but `triggerWord` is shared. -/
  shared : p.flags ⊆ {.triggerWord}
  /-- A finished task ran on such a set. -/
  futures : ∀ r ∈ done, ∃ flags : Finset Flag, flags ⊆ {.triggerWord} ∧
    p.futures r = some (call A text flags r).1

theorem poolInv_step {text : Option FormattedText} {done : List Retriever} {p : Pool}
    (h : PoolInv A text done p) (r : Retriever) : PoolInv A text (r :: done) (p.step A text r) where
  shared := call_subset h.shared r
  futures := by
    intro r' hr'
    by_cases he : r' = r
    · subst he
      exact ⟨p.flags, h.shared, by simp [Pool.step]⟩
    · obtain ⟨flags, hsub, hf⟩ := h.futures r' (by simpa [he] using hr')
      exact ⟨flags, hsub, by simpa [Pool.step, Function.update_of_ne he] using hf⟩

theorem poolInv_run {text : Option FormattedText} (order : List Retriever) :
    ∀ {done : List Retriever} {p : Pool}, PoolInv A text done p →
      PoolInv A text (order.reverse ++ done) (order.foldl (Pool.step A text) p) := by
  induction order with
  | nil => exact fun h => h
  | cons r order ih =>
    intro done p h
    have := ih (poolInv_step h r)
    simpa using this

theorem poolInv_invokeAll (A : Analyser) (text : Option FormattedText)
    (hp : order.Perm retrievers) : PoolInv A text retrievers (invokeAll A text order) := by
  have hinit : PoolInv A text [] .init := ⟨by simp [Pool.init], by simp⟩
  have h := poolInv_run order hinit
  refine ⟨h.shared, fun r hr => h.futures r ?_⟩
  simpa using hp.mem_iff.mpr hr

/-- Apart from `triggerWord`, a message's flags are those of its links and verbs. -/
theorem messageFlags_mem (ht : retrieve content = some text) (hp : order.Perm retrievers)
    (hf : f ≠ .triggerWord) :
    f ∈ messageFlags A order content ↔
      f ∈ WebsiteLinks.apply text ∅ ∨ f ∈ ImperativeVerbs.apply A text ∅ := by
  have hinv := poolInv_invokeAll A (some text) hp
  have hno : ∀ {flags : Finset Flag}, flags ⊆ {.triggerWord} → f ∉ flags :=
    fun hsub hmem => hf (mem_singleton.mp (hsub hmem))
  obtain ⟨s1, hs1, h1⟩ := hinv.futures .websiteLinks (by decide)
  obtain ⟨s2, hs2, h2⟩ := hinv.futures .imperativeVerbs (by decide)
  obtain ⟨s3, hs3, h3⟩ := hinv.futures .advertisementObjects (by decide)
  obtain ⟨s4, hs4, h4⟩ := hinv.futures .triggerHashTag (by decide)
  obtain ⟨s5, hs5, h5⟩ := hinv.futures .triggerWords (by decide)
  simp only [messageFlags, ht, retrievers, foldl_cons, foldl_nil, Finset.mem_union,
    Pool.get, h1, h2, h3, h4, h5, call]
  rw [websiteLinks_mem, imperativeVerbs_mem]
  simp [hno hinv.shared, hno hs1, hno hs2]

/-! ## The flags the filters ask for -/

/-- A channel flag is raised exactly when the text of a link contains `t.me`. -/
theorem channelLink_iff :
    (.singleChannelLink ∈ WebsiteLinks.apply text ∅ ∨
      .multipleChannelLinks ∈ WebsiteLinks.apply text ∅) ↔
        HasLink WebsiteLinks.isTelegram text := by
  have hoccurs : ∀ many, WebsiteLinks.channelFlag many ∈ WebsiteLinks.apply text ∅ ↔
      WebsiteLinks.Occurs text WebsiteLinks.isTelegram many true := fun many => by
    rw [(WebsiteLinks.apply_classified text ∅).channel, or_iff_right (Finset.notMem_empty _)]
  refine (or_congr (hoccurs false) (hoccurs true)).trans ?_
  rw [WebsiteLinks.occurs_iff, WebsiteLinks.occurs_iff]
  constructor
  · rintro (⟨url, hurl, -, htest⟩ | ⟨url, hurl, -, htest⟩)
    all_goals exact ⟨url, hurl, htest⟩
  · rintro ⟨url, hurl, htest⟩
    cases hmany : decide (1 < (WebsiteLinks.urls text).count url) with
    | false => exact .inl ⟨url, hurl, hmany, htest⟩
    | true => exact .inr ⟨url, hurl, hmany, htest⟩

theorem imperativeVerbs_isEmpty :
    (ImperativeVerbs.imperativeVerbs A text.text).isEmpty = false ↔ HasImperativeVerb A text := by
  rw [← Bool.not_eq_true, List.isEmpty_iff, ImperativeVerbs.imperativeVerbs, map_eq_nil_iff,
    filter_eq_nil_iff]
  simp only [mem_filterMap]
  push Not
  constructor
  · rintro ⟨form, ⟨word, hword, hform⟩, himp⟩
    exact ⟨word, hword, form, hform, himp⟩
  · rintro ⟨word, hword, form, hform, himp⟩
    exact ⟨form, ⟨word, hword, hform⟩, himp⟩

/-- `action` is raised exactly when there is an imperative verb. -/
theorem action_iff : .action ∈ ImperativeVerbs.apply A text ∅ ↔ HasImperativeVerb A text := by
  rw [← imperativeVerbs_isEmpty, ImperativeVerbs.apply]
  split
  · rename_i h; simp [h]
  · rename_i h
    split <;> simp [h]

/-- `triggerAction` is only raised along with `action`. -/
theorem action_of_triggerAction (h : .triggerAction ∈ ImperativeVerbs.apply A text ∅) :
    .action ∈ ImperativeVerbs.apply A text ∅ := by
  rw [action_iff, ← imperativeVerbs_isEmpty]
  unfold ImperativeVerbs.apply at h
  dsimp only at h
  split at h
  · simp at h
  · rename_i hne; exact Bool.not_eq_true _ ▸ hne

/-- The links raise nothing but link flags, the verbs nothing but actions. -/
theorem websiteLinks_kinds (h : f ∈ WebsiteLinks.apply text ∅) :
    ∃ many, f = WebsiteLinks.channelFlag many ∨ f = WebsiteLinks.websiteFlag many := by
  obtain ⟨many, hflag⟩ := ((WebsiteLinks.apply_classified text ∅ f).mp h).resolve_left
    (Finset.notMem_empty _)
  exact ⟨many, hflag.imp And.left And.left⟩

theorem imperativeVerbs_kinds (h : f ∈ ImperativeVerbs.apply A text ∅) :
    f = .action ∨ f = .triggerAction := by
  unfold ImperativeVerbs.apply at h
  dsimp only at h
  split at h
  · simp at h
  · split at h <;> simp at h <;> tauto

/-- **The verdict, in any order:** a link that contains `t.me` together with an imperative verb,
nothing else. -/
theorem isAdvertising_messageFlags (ht : retrieve content = some text)
    (hp : order.Perm retrievers) :
    isAdvertising (messageFlags A order content) = true ↔
      HasLink WebsiteLinks.isTelegram text ∧ HasImperativeVerb A text := by
  have hmem : ∀ {f : Flag}, f ≠ .triggerWord → (f ∈ messageFlags A order content ↔
      f ∈ WebsiteLinks.apply text ∅ ∨ f ∈ ImperativeVerbs.apply A text ∅) := messageFlags_mem ht hp
  -- which of the two retrievers can have raised each flag
  have hlink : ∀ {f : Flag}, f ∈ ImperativeVerbs.apply A text ∅ → f = .action ∨
    f = .triggerAction := imperativeVerbs_kinds
  have hs := (hmem (f := .singleChannelLink) (by decide)).trans
    (or_iff_left (fun h => absurd (hlink h) (by decide)))
  have hm := (hmem (f := .multipleChannelLinks) (by decide)).trans
    (or_iff_left (fun h => absurd (hlink h) (by decide)))
  have ha := (hmem (f := .action) (by decide)).trans
    (or_iff_right (fun h => absurd (websiteLinks_kinds h) (by decide)))
  have hta := (hmem (f := .triggerAction) (by decide)).trans
    (or_iff_right (fun h => absurd (websiteLinks_kinds h) (by decide)))
  have hfa : .frequentlyAdvertised ∉ messageFlags A order content := by
    rw [hmem (by decide)]
    rintro (h | h)
    · exact absurd (websiteLinks_kinds h) (by decide)
    · exact absurd (imperativeVerbs_kinds h) (by decide)
  have htrig : .triggerAction ∈ ImperativeVerbs.apply A text ∅ →
      .action ∈ ImperativeVerbs.apply A text ∅ := action_of_triggerAction
  rw [← channelLink_iff, ← action_iff]
  simp only [isAdvertising, filters, any_cons, any_nil, Bool.or_false, Bool.or_eq_true,
    decide_eq_true_eq, Finset.insert_subset_iff, Finset.singleton_subset_iff, hs, hm, ha, hta, hfa,
    false_and, or_false]
  constructor
  · rintro (⟨h1, h2⟩ | ⟨h1, h2⟩ | ⟨h1, h2⟩ | ⟨h1, h2⟩)
    · exact ⟨.inr h2, htrig h1⟩
    · exact ⟨.inl h2, htrig h1⟩
    · exact ⟨.inl h2, h1⟩
    · exact ⟨.inr h2, h1⟩
  · rintro ⟨h1 | h1, h2⟩
    · exact .inr (.inr (.inl ⟨h2, h1⟩))
    · exact .inr (.inr (.inr ⟨h2, h1⟩))

/--
**When the verdict is right.** A message with text is marked as it should be,
whatever the analyser and whatever order the retrievers run in, exactly when a
promoted product comes with an imperative verb and a link that contains `t.me`,
and, without a promoted product, an imperative verb comes with such a link only
if there is one with the host `t.me`, and the other way round.
-/
theorem verdict_correct_iff (A : Analyser) (order : List Retriever) (content : MessageContent)
    (text : FormattedText) (ht : retrieve content = some text) (hp : order.Perm retrievers) :
    (isAdvertising (messageFlags A order content) = true ↔
        (HasTelegramLink text ∧ HasImperativeVerb A text) ∨ HasPromotedProduct A text) ↔
      (HasPromotedProduct A text → HasLink WebsiteLinks.isTelegram text ∧
        HasImperativeVerb A text) ∧
      (HasImperativeVerb A text → ¬ HasPromotedProduct A text →
        (HasLink WebsiteLinks.isTelegram text ↔ HasTelegramLink text)) := by
  rw [isAdvertising_messageFlags ht hp]
  by_cases hverb : HasImperativeVerb A text
  · by_cases hproduct : HasPromotedProduct A text <;> simp [hverb, hproduct]
  · by_cases hproduct : HasPromotedProduct A text <;> simp [hverb, hproduct]

/-- An analyser that finds the given words in a text. -/
def finds (forms : List Form) : Analyser where
  parserText := fun _ => [[[forms.map Form.initialFormString]]]
  toLowerCase := fun word => word
  getOmoForms := fun word => forms.filter (fun form => form.initialFormString = word)

def invitation : FormattedText :=
  ⟨"переходи на канал", [.hashtag, .textUrl "https://ton.org", .textUrl "https://T.me/t.me"]⟩

/-- An invitation to a channel is marked, as it should be. -/
theorem verdict_correct_invitation :
    let A := finds [⟨.verb, true, "переходить"⟩, ⟨.noun, false, "канал"⟩]
    HasTelegramLink invitation ∧ HasImperativeVerb A invitation ∧
      ¬ HasPromotedProduct A invitation ∧
      isAdvertising (messageFlags A retrievers.reverse (.photo invitation)) = true := by
  intro A
  have hlink : HasTelegramLink invitation := ⟨"https://T.me/t.me", by decide, by decide⟩
  have hverb : HasImperativeVerb A invitation :=
    ⟨"переходить", by decide, ⟨.verb, true, "переходить"⟩, by decide, rfl⟩
  have hproduct : ¬ HasPromotedProduct A invitation := by
    rintro ⟨word, hword, form, hform, hmem⟩
    have : ∀ word ∈ A.parserTextToLowerCaseList invitation.text, ∀ form ∈ A.firstForm .noun word,
        form.initialFormString ∉ AdvertisementObjects.frequentlyPromotedProducts := by decide
    exact this word hword form hform hmem
  have hmentions : HasLink WebsiteLinks.isTelegram invitation :=
    ⟨"https://T.me/t.me", by decide, by decide⟩
  have hcorrect := (verdict_correct_iff A retrievers.reverse (.photo invitation) invitation rfl
    (reverse_perm _)).mpr ⟨fun h => absurd h hproduct, fun _ _ => iff_of_true hmentions hlink⟩
  exact ⟨hlink, hverb, hproduct, hcorrect.mpr (.inl ⟨hlink, hverb⟩)⟩

/-- The message `курс` names a promoted product and is not marked. -/
theorem promoted_product_unmarked :
    HasPromotedProduct (finds [⟨.noun, false, "курс"⟩]) ⟨"курс", []⟩ ∧
      isAdvertising (messageFlags (finds [⟨.noun, false, "курс"⟩]) retrievers (.text ⟨"курс", []⟩))
        = false :=
  ⟨⟨"курс", by decide, ⟨.noun, false, "курс"⟩, by decide, by decide⟩, by decide⟩

end Tdlib.Advertising
