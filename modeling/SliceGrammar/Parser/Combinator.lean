import SliceGrammar.Parser.Primitive
import SliceGrammar.Span
/-! Parsers made from parsers. A slice is always cut between two cursors and never joined from pieces,
so it is empty when the tail is behind the start or lies past the buffer. The first failure of a
sequence is its failure; a choice has the failure of its second side. -/
namespace SliceGrammar.Parser

variable {α β : Type}

def map (f : α → β) (p : Parser α) : Parser β := p.follow (fun value tail => succeed (f value) tail) refuse

def orElse (p q : Parser α) : Parser α := fun c => p.follow succeed (fun _ => q c) c

def pair (p : Parser α) (q : Parser β) : Parser (α × β) :=
  p.follow (fun first middle => q.map (fun second => (first,second)) middle) refuse

def keepLeft (p : Parser α) (q : Parser β) : Parser α :=
  p.follow (fun first middle => q.map (fun _ => first) middle) refuse

def keepRight (p : Parser α) (q : Parser β) : Parser β := p.follow (fun _ middle => q middle) refuse

def bind (p : Parser α) (f : α → Cursor → Outcome β) : Parser β :=
  p.follow (fun value tail => done (f value tail)) refuse

def andThen (p : Parser α) (next : α → Parser β) : Parser β :=
  p.follow (fun value middle => next value middle) refuse

def optional (p : Parser α) : Parser (Option α) := fun c =>
  p.follow (fun value tail => succeed (some value) tail) (fun _ => succeed none c) c

def absent (p : Parser α) : Parser Unit := fun c =>
  p.follow (fun _ _ => refuse none) (fun _ => succeed () c) c

def present (p : Parser α) : Parser Unit := fun c => p.follow (fun _ _ => succeed () c) refuse c

def spanned (p : Parser α) : Parser (α × Span) := fun c =>
  p.follow (fun value tail => succeed (value,⟨c.position,tail.position,c.sliceTo tail⟩) tail) refuse c

def recognize (p : Parser α) : Parser Bytes := fun c =>
  p.follow (fun _ tail => succeed (c.sliceTo tail) tail) refuse c

def concat (p : Parser α) (q : Parser β) : Parser Bytes := fun c =>
  p.follow (fun _ middle => q.follow (fun _ tail => succeed (c.sliceTo tail) tail) refuse middle) refuse c

/- The value of `p` as text. A value that is no text is reported at the place where `p` began. -/
def text (p : Parser Bytes) : Parser String := fun c =>
  p.follow
    (fun value tail =>
      match Utf8.text value with
      | .ok text => succeed text tail
      | .error fault => some ⟨[.event (.notText c.position fault)],.failure none⟩)
    refuse c

theorem mapExtends {p q : Parser α} (f : α → β) (more : Extends p q) : Extends (map f p) (map f q) :=
  fun _ _ h => followExtends more (fun _ _ _ h => h) (fun _ _ h => h) h

theorem orElseExtends {p q p' q' : Parser α} (first : Extends p p') (second : Extends q q') :
    Extends (orElse p q) (orElse p' q') :=
  fun c _ h => followExtends first (fun _ _ _ h => h) (fun _ s h => second c s h) h

theorem pairExtends {p p' : Parser α} {q q' : Parser β} (first : Extends p p') (second : Extends q q') :
    Extends (pair p q) (pair p' q') :=
  fun _ _ h => followExtends first (fun _ tail s h => mapExtends _ second tail s h) (fun _ _ h => h) h

theorem keepLeftExtends {p p' : Parser α} {q q' : Parser β} (first : Extends p p') (second : Extends q q') :
    Extends (keepLeft p q) (keepLeft p' q') :=
  fun _ _ h => followExtends first (fun _ tail s h => mapExtends _ second tail s h) (fun _ _ h => h) h

theorem keepRightExtends {p p' : Parser α} {q q' : Parser β} (first : Extends p p') (second : Extends q q') :
    Extends (keepRight p q) (keepRight p' q') :=
  fun _ _ h => followExtends first (fun _ tail s h => second tail s h) (fun _ _ h => h) h

theorem bindExtends {p q : Parser α} (f : α → Cursor → Outcome β) (more : Extends p q) :
    Extends (bind p f) (bind q f) :=
  fun _ _ h => followExtends more (fun _ _ _ h => h) (fun _ _ h => h) h

theorem andThenExtends {p q : Parser α} {next next' : α → Parser β} (more : Extends p q)
    (chosen : ∀ value, Extends (next value) (next' value)) : Extends (andThen p next) (andThen q next') :=
  fun _ _ h => followExtends more (fun value tail s h => chosen value tail s h) (fun _ _ h => h) h

theorem optionalExtends {p q : Parser α} (more : Extends p q) : Extends (optional p) (optional q) :=
  fun _ _ h => followExtends more (fun _ _ _ h => h) (fun _ _ h => h) h

theorem absentExtends {p q : Parser α} (more : Extends p q) : Extends (absent p) (absent q) :=
  fun _ _ h => followExtends more (fun _ _ _ h => h) (fun _ _ h => h) h

theorem presentExtends {p q : Parser α} (more : Extends p q) : Extends (present p) (present q) :=
  fun _ _ h => followExtends more (fun _ _ _ h => h) (fun _ _ h => h) h

theorem spannedExtends {p q : Parser α} (more : Extends p q) : Extends (spanned p) (spanned q) :=
  fun _ _ h => followExtends more (fun _ _ _ h => h) (fun _ _ h => h) h

theorem recognizeExtends {p q : Parser α} (more : Extends p q) : Extends (recognize p) (recognize q) :=
  fun _ _ h => followExtends more (fun _ _ _ h => h) (fun _ _ h => h) h

theorem concatExtends {p p' : Parser α} {q q' : Parser β} (first : Extends p p') (second : Extends q q') :
    Extends (concat p q) (concat p' q') :=
  fun _ _ h => followExtends first
    (fun _ _ _ h => followExtends second (fun _ _ _ h => h) (fun _ _ h => h) h) (fun _ _ h => h) h

theorem textExtends {p q : Parser Bytes} (more : Extends p q) : Extends (text p) (text q) :=
  fun _ _ h => followExtends more (fun _ _ _ h => h) (fun _ _ h => h) h

end SliceGrammar.Parser
