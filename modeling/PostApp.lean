import PostApp.Schemes.Tree
import PostApp.Schemes.Node
import PostApp.Schemes.Run
import PostApp.Schemes.Listener
import PostApp.Model.Database
import PostApp.Model.Records
import PostApp.Chat.SendMessage
import PostApp.Session.CurrentUser
import PostApp.Chat.Network
import PostApp.Chat.Invariant
import PostApp.Chat.Overwrite
import PostApp.Chat.Composer
import PostApp.Chat.Outcome
import PostApp.Session.SignUp
import PostApp.Chat.Screen
import PostApp.Chat.Flags
import PostApp.Chat.Interference
import PostApp.Profiles.Copies
import PostApp.Feed.HomeVC
import PostApp.Feed.Invariant
import PostApp.Feed.Posts
import PostApp.Feed.Scroll
import PostApp.Images.ImageService
import PostApp.Images.Photo
import PostApp.Feed.PostComposer
import PostApp.Feed.Overlays
import PostApp.Chat.Draft
import PostApp.Chat.Order
import PostApp.Session.Atomic
import PostApp.Chat.Listeners
import PostApp.Chat.Decode
import PostApp.Profiles.PersonList
import PostApp.Feed.Deletion
import PostApp.Schemes.Settle
import PostApp.Chat.Progress
import PostApp.Chat.Mailbox
import PostApp.Chat.Partners
import PostApp.Feed.Visibility
import PostApp.Feed.Convergence
import PostApp.Feed.Removal
import PostApp.Profiles.Isolation
import PostApp.Session.Completion
import PostApp.Session.Authors
import PostApp.Profiles.Hidden
import PostApp.Profiles.Erasure
import PostApp.Images.Cache
import PostApp.Chat.Notes
import PostApp.Session.Endings
import PostApp.Schemes.Moments
import PostApp.Feed.Reads
import PostApp.Feed.Freeze
