import Mathlib

/-!
# The advertisement retrievers

Five retrievers look at a message and raise flags; a list of flag conjunctions
then decides whether the message is marked as advertising.

What makes the model more than five functions is aliasing. `SwingUIHandler`
creates one empty `EnumSet` and passes the *same* set to all five constructors.
Two of the retrievers copy it before they add to it, two add to it in place and
return it, and one returns `null`; the tasks run on a thread pool in any order,
and the results are read only when all of them are done. So a task's result is
either a set of its own or a reference to the shared one (`Returned`), and the
shared set is part of the state.

The graphematic parser and the morphological analyser are third-party code, and
with the lower-casing of words they are a parameter: an `Analyser`.
-/

namespace Tdlib.Advertising

inductive Flag where
  | multipleWebsiteLinks
  | singleWebsiteLink
  | multipleChannelLinks
  | singleChannelLink
  | userTelephone
  | userLink
  | triggerWord
  | frequentlyAdvertised
  | triggerAction
  | subscribeAction
  | earnAction
  | justDoAction
  | action
  | forFree
  | onlyToday
  | promotion
  | new
  | give
  | discount
  | course
  | webinar
  | price
  | currencyName
  | currencySymbol
deriving DecidableEq

/-! ## Messages -/

inductive TextEntityType where
  | textUrl (url : String)
  | hashtag
  | other
deriving DecidableEq

structure FormattedText where
  text : String
  entities : List TextEntityType
deriving DecidableEq

inductive MessageContent where
  | photo (caption : FormattedText)
  | animation (caption : FormattedText)
  | text (text : FormattedText)
  | video (caption : FormattedText)
  | other
deriving DecidableEq

/-- `TgTextContentRetrievable.retrieve`; `none` is `null`. -/
def retrieve : MessageContent → Option FormattedText
  | .photo caption => some caption
  | .animation caption => some caption
  | .text text => some text
  | .video caption => some caption
  | .other => none

/-! ## Morphology -/

inductive TypeOfSpeech where
  | noun
  | verb
  | other
deriving DecidableEq

/-- One reading of a word. -/
structure Form where
  typeOfSpeech : TypeOfSpeech
  /-- `isContainsMorphCharacteristic(Mood.class, Mood.IMPERATIVE)` -/
  imperative : Bool
  initialFormString : String
deriving DecidableEq

/-- The code outside the repository that the retrievers call. -/
structure Analyser where
  parserText : String → List (List (List (List String)))
  toLowerCase : String → String
  getOmoForms : String → List Form

/-- `GParserModImpl.parserTextToLowerCaseList`. -/
def Analyser.parserTextToLowerCaseList (A : Analyser) (text : String) : List String :=
  (A.parserText text).flatten.flatten.flatten.map A.toLowerCase

/-- The first reading of `word` as the given part of speech. -/
def Analyser.firstForm (A : Analyser) (type : TypeOfSpeech) (word : String) : Option Form :=
  ((A.getOmoForms word).filter (fun f => f.typeOfSpeech = type)).head?

/-! ## The retrievers -/

namespace WebsiteLinks

def telegramDomain : String := "t.me"

/-- `url.contains(TELEGRAM_DOMAIN)`. -/
def isTelegram (url : String) : Bool := decide (telegramDomain.toList <:+: url.toList)

/-- The urls of the text-url entities. -/
def urls (content : FormattedText) : List String :=
  content.entities.filterMap fun
    | .textUrl url => some url
    | _ => none

def apply (content : FormattedText) (existingFlags : Finset Flag) : Finset Flag :=
  let urls := urls content
  let uniqueUrls := urls.toFinset
  let tgUrls := uniqueUrls.filter (fun url => isTelegram url)
  existingFlags
    ∪ tgUrls.image (fun url =>
        if urls.count url > 1 then Flag.multipleChannelLinks else Flag.singleChannelLink)
    ∪ (uniqueUrls \ tgUrls).image (fun url =>
        if urls.count url > 1 then Flag.multipleWebsiteLinks else Flag.singleWebsiteLink)

end WebsiteLinks

namespace ImperativeVerbs

def triggerVerbs : List String :=
  ["подписываюсь", "присоединяюсь", "успею", "действую", "перехожу"]

/-- The initial forms of the words whose first verb reading is imperative. -/
def imperativeVerbs (A : Analyser) (text : String) : List String :=
  (((A.parserTextToLowerCaseList text).filterMap (A.firstForm .verb)).filter
    (fun verb => verb.imperative)).map Form.initialFormString

def apply (A : Analyser) (content : FormattedText) (existingFlags : Finset Flag) : Finset Flag :=
  let verbs := imperativeVerbs A content.text
  if verbs.isEmpty then existingFlags
  else if (verbs.filter triggerVerbs.contains).isEmpty then insert .action
    existingFlags
  else insert .triggerAction (insert .action existingFlags)

end ImperativeVerbs

/-- The initial forms of the words that have a noun reading. -/
def nouns (A : Analyser) (text : String) : List String :=
  ((A.parserTextToLowerCaseList text).filterMap (A.firstForm .noun)).map Form.initialFormString

/--
The two retrievers that look nouns up in a word list: both raise `triggerWord`,
in the set they were constructed with, and return that set.
-/
def applyNouns (list : List String) (A : Analyser) (text : FormattedText) (flags : Finset Flag) :
    Finset Flag :=
  if ((nouns A text.text).filter list.contains).isEmpty then flags
  else insert .triggerWord flags

namespace AdvertisementObjects

def frequentlyPromotedProducts : List String := ["курс", "вебинар", "марафон", "кредит"]

def apply (A : Analyser) : FormattedText → Finset Flag → Finset Flag :=
  applyNouns frequentlyPromotedProducts A

end AdvertisementObjects

namespace TriggerWords

def triggerWords : List String := ["промокод", "скидка", "код", "акция"]

def apply (A : Analyser) : FormattedText → Finset Flag → Finset Flag :=
  applyNouns triggerWords A

end TriggerWords

/-! ## Running them -/

inductive Retriever where
  | websiteLinks
  | imperativeVerbs
  | advertisementObjects
  | triggerHashTag
  | triggerWords
deriving DecidableEq

/-- The list handed to the thread pool, and the order its futures are read in. -/
def retrievers : List Retriever :=
  [.websiteLinks, .imperativeVerbs, .advertisementObjects, .triggerHashTag, .triggerWords]

/-- What a finished task holds. -/
inductive Returned where
  /-- A set of its own. -/
  | copy (flags : Finset Flag)
  /-- A reference to the shared set. -/
  | alias
  | null
  /-- An exception, which `get` rethrows. -/
  | thrown
deriving DecidableEq

/-- `call()`: the result, and the shared set afterwards. -/
def call (A : Analyser) (text : Option FormattedText) (flags : Finset Flag) :
    Retriever → Returned × Finset Flag :=
  match text with
  | none => fun _ => (.thrown, flags)
  | some text => fun
    | .websiteLinks => (.copy (WebsiteLinks.apply text flags), flags)
    | .imperativeVerbs => (.copy (ImperativeVerbs.apply A text flags), flags)
    | .advertisementObjects => (.alias, AdvertisementObjects.apply A text flags)
    | .triggerHashTag => (.null, flags)
    | .triggerWords => (.alias, TriggerWords.apply A text flags)

/-- The shared set, and the futures that are done. -/
structure Pool where
  flags : Finset Flag
  futures : Retriever → Option Returned

def Pool.init : Pool := ⟨∅, fun _ => none⟩

/-- One task runs to its end. -/
def Pool.step (A : Analyser) (text : Option FormattedText) (p : Pool) (r : Retriever) : Pool :=
  { flags := (call A text p.flags r).2
    futures := Function.update p.futures r (some (call A text p.flags r).1) }

/-- `invokeAll`, with the tasks running in the given order. -/
def invokeAll (A : Analyser) (text : Option FormattedText) (order : List Retriever) : Pool :=
  order.foldl (Pool.step A text) .init

/-- What `result.addAll(t.get())` adds: nothing when it throws. -/
def Pool.get (p : Pool) (r : Retriever) : Finset Flag :=
  match p.futures r with
  | some (.copy flags) => flags
  | some .alias => p.flags
  | _ => ∅

/-- The flags of a message. -/
def messageFlags (A : Analyser) (order : List Retriever) (content : MessageContent) : Finset Flag :=
  let pool := invokeAll A (retrieve content) order
  retrievers.foldl (fun result r => result ∪ pool.get r) ∅

def filters : List (Finset Flag) :=
  [{.triggerAction, .multipleChannelLinks}, {.triggerAction, .singleChannelLink},
   {.action, .singleChannelLink},
   {.action, .multipleChannelLinks},
   {.frequentlyAdvertised, .triggerWord},
   {.frequentlyAdvertised}]

/-- The message is shown as advertising. -/
def isAdvertising (flags : Finset Flag) : Bool := filters.any (fun f => decide (f ⊆ flags))

end Tdlib.Advertising
