import Tdlib.Retriever.Retrievers

/-!
# Which links are channels

A link is taken for a channel if its text contains `t.me` anywhere. That is not the same as having
the host `t.me`: a path may contain it, or a longer name such as `sport.media`, and a host in
capital letters does not contain it.

What the retriever adds depends on the urls only through four questions: is there a channel, or
another site, that occurs once, or more than once. So it is right exactly when the textual test
gives the same four answers as the hosts.
-/

namespace Tdlib.Advertising

/-! ## Hosts -/

/-- What comes after the scheme, if there is one. -/
def afterScheme (url : List Char) : List Char :=
  let scheme := url.takeWhile fun c => c ∉ ":/?#@[]".toList
  let rest := url.drop scheme.length
  if "://".toList <+: rest then rest.drop 3 else url

/-- The part of an authority after the last `@`. -/
def afterUserinfo (authority : List Char) : List Char :=
  (authority.reverse.takeWhile fun c => c ≠ '@').reverse

/-- `[scheme://][userinfo@]host[:port]`, in lower case. -/
def host (url : String) : String :=
  let authority := (afterScheme url.toList).takeWhile fun c => c ∉ "/?#".toList
  String.ofList (((afterUserinfo authority).takeWhile fun c => c ≠ ':').map Char.toLower)

example : host "https://user@T.me:443/durov" = "t.me" := by decide

example : host "https://sport.media/t.me" = "sport.media" := by decide

/-! ## What is to be raised -/

namespace WebsiteLinks

def channelFlag (many : Bool) : Flag :=
  if many then .multipleChannelLinks else .singleChannelLink

def websiteFlag (many : Bool) : Flag :=
  if many then .multipleWebsiteLinks else .singleWebsiteLink

def hasTelegramHost (url : String) : Bool := host url = telegramDomain

/-- Some url occurs at least twice, or exactly once, and is a channel by the given test, or not. -/
def Occurs (content : FormattedText) (test : String → Bool) (many channel : Bool) : Prop :=
  ∃ url, (if many then 2 ≤ (urls content).count url else (urls content).count url = 1) ∧
    test url = channel

/-- The flags of `result` are those of `existingFlags` and the ones that the urls call for. -/
def Classified (content : FormattedText) (test : String → Bool)
    (existingFlags result : Finset Flag) : Prop :=
  ∀ f, f ∈ result ↔ f ∈ existingFlags ∨
    ∃ many, f = channelFlag many ∧ Occurs content test many true ∨
      f = websiteFlag many ∧ Occurs content test many false

variable {content : FormattedText} {test test' : String → Bool} {existingFlags result : Finset Flag}

variable {a b : Bool}

theorem channelFlag_inj (h : channelFlag a = channelFlag b) : a = b := by
  cases a <;> cases b <;> first | rfl | cases h

theorem websiteFlag_inj (h : websiteFlag a = websiteFlag b) : a = b := by
  cases a <;> cases b <;> first | rfl | cases h

theorem channelFlag_ne : channelFlag a ≠ websiteFlag b := by
  cases a <;> cases b <;> decide

section

variable (h : Classified content test existingFlags result)
include h

theorem Classified.channel (many : Bool) :
    channelFlag many ∈ result ↔
      channelFlag many ∈ existingFlags ∨ Occurs content test many true := by
  rw [h]
  refine or_congr_right ⟨?_, fun hoccurs => ⟨many, .inl ⟨rfl, hoccurs⟩⟩⟩
  rintro ⟨other, ⟨heq, hoccurs⟩ | ⟨heq, -⟩⟩
  · rwa [channelFlag_inj heq]
  · exact absurd heq channelFlag_ne

theorem Classified.website (many : Bool) :
    websiteFlag many ∈ result ↔
      websiteFlag many ∈ existingFlags ∨ Occurs content test many false := by
  rw [h]
  refine or_congr_right ⟨?_, fun hoccurs => ⟨many, .inr ⟨rfl, hoccurs⟩⟩⟩
  rintro ⟨other, ⟨heq, -⟩ | ⟨heq, hoccurs⟩⟩
  · exact absurd heq.symm channelFlag_ne
  · rwa [websiteFlag_inj heq]

/-- **Two tests raise the same flags** when they give the same answers, as far as these matter. -/
theorem Classified.congr_iff :
    Classified content test' existingFlags result ↔
      ∀ many, (channelFlag many ∈ existingFlags ∨
          (Occurs content test many true ↔ Occurs content test' many true)) ∧
        (websiteFlag many ∈ existingFlags ∨
          (Occurs content test many false ↔ Occurs content test' many false)) := by
  constructor
  · intro h' many
    have hchannel := (h.channel many).symm.trans (h'.channel many)
    have hwebsite := (h.website many).symm.trans (h'.website many)
    constructor
    · by_cases hin : channelFlag many ∈ existingFlags
      · exact .inl hin
      · rw [or_iff_right hin, or_iff_right hin] at hchannel
        exact .inr hchannel
    · by_cases hin : websiteFlag many ∈ existingFlags
      · exact .inl hin
      · rw [or_iff_right hin, or_iff_right hin] at hwebsite
        exact .inr hwebsite
  intro hsame f
  rw [h f]
  by_cases hin : f ∈ existingFlags
  · exact iff_of_true (.inl hin) (.inl hin)
  rw [or_iff_right hin, or_iff_right hin]
  refine exists_congr fun many => or_congr ?_ ?_
  · refine and_congr_right fun heq => ?_
    rw [heq] at hin
    exact (hsame many).1.resolve_left hin
  · refine and_congr_right fun heq => ?_
    rw [heq] at hin
    exact (hsame many).2.resolve_left hin

end

/-! ## What is raised -/

theorem occurs_iff {many channel : Bool} : Occurs content test many channel ↔
    ∃ url ∈ urls content, decide (1 < (urls content).count url) = many ∧ test url = channel := by
  refine exists_congr fun url => ?_
  have hpos : url ∈ urls content ↔ 0 < (urls content).count url := List.count_pos_iff.symm
  rw [hpos]
  cases many with
  | true =>
    rw [if_pos rfl, decide_eq_true_eq]
    constructor
    · rintro ⟨hcount, htest⟩
      exact ⟨by omega, by omega, htest⟩
    · rintro ⟨-, hcount, htest⟩
      exact ⟨by omega, htest⟩
  | false =>
    rw [if_neg nofun, decide_eq_false_iff_not]
    constructor
    · rintro ⟨hcount, htest⟩
      exact ⟨by omega, by omega, htest⟩
    · rintro ⟨hpos, hcount, htest⟩
      exact ⟨by omega, htest⟩

/-- The retriever goes by the text. -/
theorem apply_classified (content : FormattedText) (existingFlags : Finset Flag) :
    Classified content isTelegram existingFlags (apply content existingFlags) := by
  intro f
  have hflag : ∀ n : Nat, (if n > 1 then Flag.multipleChannelLinks else Flag.singleChannelLink)
      = channelFlag (decide (1 < n)) := by
    intro n
    unfold channelFlag
    by_cases hn : 1 < n
    · rw [if_pos hn, if_pos (decide_eq_true hn)]
    · rw [if_neg hn, if_neg (by simpa using hn)]
  have hflag' : ∀ n : Nat, (if n > 1 then Flag.multipleWebsiteLinks else Flag.singleWebsiteLink)
      = websiteFlag (decide (1 < n)) := by
    intro n
    unfold websiteFlag
    by_cases hn : 1 < n
    · rw [if_pos hn, if_pos (decide_eq_true hn)]
    · rw [if_neg hn, if_neg (by simpa using hn)]
  unfold apply
  rw [Finset.mem_union, Finset.mem_union, Finset.mem_image, Finset.mem_image, or_assoc]
  refine or_congr_right ?_
  constructor
  · rintro (⟨url, hurl, rfl⟩ | ⟨url, hurl, rfl⟩)
    · rw [Finset.mem_filter, List.mem_toFinset] at hurl
      exact ⟨_, .inl ⟨hflag _, occurs_iff.mpr ⟨url, hurl.1, rfl, hurl.2⟩⟩⟩
    · rw [Finset.mem_sdiff, Finset.mem_filter, List.mem_toFinset, not_and] at hurl
      exact ⟨_, .inr ⟨hflag' _, occurs_iff.mpr ⟨url, hurl.1, rfl,
        Bool.eq_false_iff.mpr (hurl.2 hurl.1)⟩⟩⟩
  rintro ⟨many, ⟨rfl, hoccurs⟩ | ⟨rfl, hoccurs⟩⟩
  · obtain ⟨url, hurl, rfl, htest⟩ := occurs_iff.mp hoccurs
    refine .inl ⟨url, ?_, hflag _⟩
    rw [Finset.mem_filter, List.mem_toFinset]
    exact ⟨hurl, htest⟩
  · obtain ⟨url, hurl, rfl, htest⟩ := occurs_iff.mp hoccurs
    refine .inr ⟨url, ?_, hflag' _⟩
    rw [Finset.mem_sdiff, Finset.mem_filter, List.mem_toFinset, not_and]
    exact ⟨hurl, fun _ => by rw [htest]; exact nofun⟩

/-- The order of the entities plays no part. -/
theorem apply_perm {entities : List TextEntityType} (h : content.entities.Perm entities)
    (existingFlags : Finset Flag) :
    apply { content with entities } existingFlags = apply content existingFlags := by
  have hurls : (urls content).Perm (urls { content with entities }) := h.filterMap _
  have hset : (urls { content with entities }).toFinset = (urls content).toFinset :=
    (List.toFinset_eq_of_perm _ _ hurls).symm
  unfold apply
  dsimp only
  rw [hset]
  simp only [← hurls.count_eq]

/-- **When links are classified by their hosts**: for channels and for other sites, once and more
than once, there is such a link by its text exactly if there is one by its host, or else the flag
was there before. The order of the entities never matters, and the existing flags are not
changed. -/
theorem classified_by_host_iff (content : FormattedText) (existingFlags : Finset Flag) :
    (∀ entities, content.entities.Perm entities →
      apply { content with entities } existingFlags = apply content existingFlags) ∧
    (∀ A, call A (some content) existingFlags .websiteLinks
      = (.copy (apply content existingFlags), existingFlags)) ∧
    (Classified content hasTelegramHost existingFlags (apply content existingFlags) ↔
      ∀ many, (channelFlag many ∈ existingFlags ∨
          (Occurs content isTelegram many true ↔ Occurs content hasTelegramHost many true)) ∧
        (websiteFlag many ∈ existingFlags ∨
          (Occurs content isTelegram many false ↔ Occurs content hasTelegramHost many false))) :=
  ⟨fun _ h => apply_perm h existingFlags, fun _ => rfl,
    (apply_classified content existingFlags).congr_iff⟩

/-- Tests that agree on all urls are as good as each other. -/
theorem occurs_congr (h : ∀ url ∈ urls content, test url = test' url) (many channel : Bool) :
    Occurs content test many channel ↔ Occurs content test' many channel := by
  rw [occurs_iff, occurs_iff]
  refine exists_congr fun url => and_congr_right fun hurl => ?_
  rw [h url hurl]

/-- A channel and another site are told apart. -/
theorem classified_by_host_two :
    Classified ⟨"", [.textUrl "https://t.me/durov", .hashtag, .textUrl "https://ton.org"]⟩
      hasTelegramHost {.action}
      (apply ⟨"", [.textUrl "https://t.me/durov", .hashtag, .textUrl "https://ton.org"]⟩
        {.action}) := by
  refine (classified_by_host_iff _ _).2.2.mpr fun many => ?_
  have hsame : ∀ url ∈ urls ⟨"", [.textUrl "https://t.me/durov", .hashtag,
      .textUrl "https://ton.org"]⟩, isTelegram url = hasTelegramHost url := by decide
  exact ⟨.inr (occurs_congr hsame many true), .inr (occurs_congr hsame many false)⟩

/-- A site whose name contains the text is taken for a channel. -/
theorem name_taken_for_channel :
    apply ⟨"", [.textUrl "https://sport.media/news"]⟩ ∅ = {.singleChannelLink} ∧
    ¬Classified ⟨"", [.textUrl "https://sport.media/news"]⟩ hasTelegramHost ∅
      (apply ⟨"", [.textUrl "https://sport.media/news"]⟩ ∅) := by
  have happly : apply ⟨"", [.textUrl "https://sport.media/news"]⟩ ∅ = {.singleChannelLink} := by
    decide
  refine ⟨happly, fun h => ?_⟩
  have hmem := (h.channel false).mp (by rw [happly]; decide)
  obtain ⟨url, hurl, -, htest⟩ := occurs_iff.mp (hmem.resolve_left (by decide))
  rw [List.mem_singleton.mp hurl] at htest
  cases htest

end WebsiteLinks

end Tdlib.Advertising
