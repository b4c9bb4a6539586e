import StreamLexer.Main
import StreamLexer.Session
import StreamLexer.Proofs.EndOfInput
import StreamLexer.Proofs.Newline
import StreamLexer.Proofs.ReaderSession
import StreamLexer.Proofs.Streaming
import StreamLexer.Proofs.Trivia
import StreamLexer.Proofs.Writing
import StreamLexer.Proofs.DecodedUnits
import StreamLexer.Proofs.CommandLineRun
import StreamLexer.Proofs.Rounding
import StreamLexer.Proofs.ShortestDecimal
import StreamLexer.Proofs.NumberLayout
import StreamLexer.Proofs.TokenShape
import StreamLexer.Proofs.LineFraming
import StreamLexer.Proofs.TokenText
import StreamLexer.Proofs.JsonGrammar
import StreamLexer.Proofs.JsonText
import StreamLexer.Proofs.TokenJson
import StreamLexer.Proofs.DecoderEnd
import StreamLexer.Proofs.DecodingSeam
import StreamLexer.Proofs.Lookahead
import StreamLexer.Proofs.NearestValue
import StreamLexer.Proofs.NumeralValue
import StreamLexer.Proofs.NumberRoundTrip
import StreamLexer.Proofs.CommentSearch
import StreamLexer.Proofs.ResumedWriting
import StreamLexer.Proofs.NumberTokens
import StreamLexer.Proofs.ConfigText
import StreamLexer.Proofs.LimitNumbers
import StreamLexer.Proofs.ByteAccounts
import StreamLexer.Proofs.WordSpelling
